import Flowgraph.Proofs.Cycles
/-! The check of templates is exact. It comes to an end without a bound on how deep templates are used inside each
other, and it refuses just those nodes from which a template is reached that has no order or is inside itself. -/
namespace Flowgraph.StartOrder

open Relation

variable {nodes : List Record} {order : List Nat} {fault : ConfigFault}

/-! ## The check of templates, without fuel -/

variable {templates : Templates} {checked checked' around : List String} {id inner : String} {t : Template} {r : Record}
  {outcome : Except ConfigFault (List String)}

/-- An enabled node uses the template of this id, whether or not it exists. -/
def Employs (r : Record) (id : String) : Prop := r.disabled = false ∧ r.templateId? = some id

/-- What the check of some nodes comes to, with the templates `around` them and those that are `checked` already. It
goes through the nodes and into each template that is used, and nothing bounds how deep it goes. -/
inductive Checks (templates : Templates) :
    (around checked : List String) → (nodes : List Record) → (outcome : Except ConfigFault (List String)) → Prop
  | done {around checked : List String} : Checks templates around checked [] (.ok checked)
  /-- A node that is disabled, or uses no template, one that does not exist or one that is checked. -/
  | pass {around checked : List String} {r : Record} {nodes : List Record} {outcome : Except ConfigFault (List String)}
      (h : ∀ id, Employs r id → id ∉ around ∧ (id ∈ checked ∨ templates.get? id = none))
      (rest : Checks templates around checked nodes outcome) : Checks templates around checked (r :: nodes) outcome
  /-- A template inside itself. -/
  | loops {around checked : List String} {r : Record} {nodes : List Record} {id : String} (h : Employs r id)
      (inside : id ∈ around) : Checks templates around checked (r :: nodes) (.error (.circularDependency id))
  /-- A template whose nodes have no order. -/
  | unordered {around checked : List String} {r : Record} {nodes : List Record} {id : String} {t : Template}
      {fault : ConfigFault} (h : Employs r id) (out : id ∉ around) (fresh : id ∉ checked)
      (ht : templates.get? id = some t) (ho : resolve t.nodes = .error fault) :
      Checks templates around checked (r :: nodes) (.error fault)
  /-- A template inside of which the check fails. -/
  | fails {around checked : List String} {r : Record} {nodes : List Record} {id : String} {t : Template}
      {fault : ConfigFault} {order : List Nat} (h : Employs r id) (out : id ∉ around) (fresh : id ∉ checked)
      (ht : templates.get? id = some t) (ho : resolve t.nodes = .ok order)
      (deep : Checks templates (id :: around) checked t.nodes (.error fault)) :
      Checks templates around checked (r :: nodes) (.error fault)
  /-- A sound template, checked from now on. -/
  | enters {around checked checked' : List String} {r : Record} {nodes : List Record} {id : String} {t : Template}
      {order : List Nat} {outcome : Except ConfigFault (List String)} (h : Employs r id) (out : id ∉ around)
      (fresh : id ∉ checked) (ht : templates.get? id = some t) (ho : resolve t.nodes = .ok order)
      (deep : Checks templates (id :: around) checked t.nodes (.ok checked'))
      (rest : Checks templates around (id :: checked') nodes outcome) :
      Checks templates around checked (r :: nodes) outcome

/-- Templates around each other are different and exist, so there is fuel for what is left of them. -/
structure Nested (templates : Templates) (fuel : Nat) (around : List String) : Prop where
  nodup : around.Nodup
  known : ∀ id ∈ around, id ∈ templates.keys
  fuel : templates.length < fuel + around.length

theorem Nested.outermost : Nested templates (templates.length + 1) [] :=
  ⟨List.nodup_nil, by simp, by simp⟩

theorem Nested.fuelled {fuel : Nat} (h : Nested templates fuel around) : ∃ n, fuel = n + 1 := by
  refine Nat.exists_eq_succ_of_ne_zero ?_
  rintro rfl
  have := length_le_of_known h.nodup h.known
  have := h.fuel
  omega

theorem Nested.enter {fuel : Nat} (h : Nested templates (fuel + 1) around) (out : id ∉ around)
    (ht : templates.get? id = some t) : Nested templates fuel (id :: around) := by
  refine ⟨List.nodup_cons.mpr ⟨out, h.nodup⟩, List.forall_mem_cons.mpr ⟨mem_keys_of_get? ht, h.known⟩, ?_⟩
  have := h.fuel
  rw [List.length_cons]
  omega

/-- The check of the first node, then that of the others. -/
theorem checkUsages_cons (fuel : Nat) : checkUsages templates (fuel + 1) around checked (r :: nodes) =
    (if r.disabled then .ok checked else checkUsage templates fuel around checked r) >>=
      fun checked => checkUsages templates (fuel + 1) around checked nodes := by
  rw [checkUsages_succ, List.filter_cons]
  cases r.disabled <;> rfl

/-- The check with fuel runs as the one without. -/
theorem checks_checkUsages (fuel : Nat) (h : Nested templates fuel around) :
    Checks templates around checked nodes (checkUsages templates fuel around checked nodes) := by
  induction fuel generalizing around checked nodes with
  | zero =>
    obtain ⟨n, hn⟩ := h.fuelled
    cases hn
  | succ fuel ih =>
    induction nodes generalizing checked with
    | nil => exact .done
    | cons r nodes rest =>
      rw [checkUsages_cons]
      cases hd : r.disabled with
      | true => exact .pass (fun id hu => absurd (hd.symm.trans hu.1) (by simp)) rest
      | false =>
        rw [if_neg Bool.false_ne_true]
        unfold checkUsage
        split
        · rename_i hid
          exact .pass (fun id hu => absurd (hid.symm.trans hu.2) (by simp)) rest
        · rename_i id hid
          have hu : Employs r id := ⟨hd, hid⟩
          have honly {id' : String} (hu' : Employs r id') : id = id' := Option.some.inj (hid.symm.trans hu'.2)
          split
          · rename_i hin
            exact .loops hu (List.contains_iff_mem.mp hin)
          · rename_i hout
            have hout : id ∉ around := fun hm => hout (List.contains_iff_mem.mpr hm)
            split
            · rename_i hc
              exact .pass (fun id' hu' => honly hu' ▸ ⟨hout, .inl (List.contains_iff_mem.mp hc)⟩) rest
            · rename_i hfresh
              have hfresh : id ∉ checked := fun hm => hfresh (List.contains_iff_mem.mpr hm)
              split
              · rename_i ht
                exact .pass (fun id' hu' => honly hu' ▸ ⟨hout, .inr ht⟩) rest
              · rename_i t ht
                cases ho : resolve t.nodes with
                | error fault => exact .unordered hu hout hfresh ht ho
                | ok order =>
                  have hdeep : Checks templates (id :: around) checked t.nodes
                      (checkUsages templates fuel (id :: around) checked t.nodes) := ih (h.enter hout ht)
                  dsimp only [bind, Except.bind, pure, Except.pure]
                  cases hi : checkUsages templates fuel (id :: around) checked t.nodes with
                  | error fault => exact .fails hu hout hfresh ht ho (hi ▸ hdeep)
                  | ok checked' => exact .enters hu hout hfresh ht ho (hi ▸ hdeep) rest

theorem checkUsage_pass (fuel : Nat) (hd : r.disabled = false)
    (h : ∀ id, Employs r id → id ∉ around ∧ (id ∈ checked ∨ templates.get? id = none)) :
    checkUsage templates fuel around checked r = .ok checked := by
  unfold checkUsage
  cases hid : r.templateId? with
  | none => rfl
  | some id =>
    obtain ⟨out, hc | ht⟩ := h id ⟨hd, hid⟩
    · simp [out, hc]
    · simp [out, ht]

theorem checkUsage_enter (fuel : Nat) (hu : Employs r id) (out : id ∉ around) (fresh : id ∉ checked)
    (ht : templates.get? id = some t) (ho : resolve t.nodes = .ok order) :
    checkUsage templates fuel around checked r =
      (checkUsages templates fuel (id :: around) checked t.nodes).map fun checked => id :: checked := by
  simp only [checkUsage, hu.2, List.contains_iff_mem, out, fresh, ht, ho, if_false]
  rfl

/-- What the check without fuel comes to is the result of the one with fuel. -/
theorem Checks.result (h : Checks templates around checked nodes outcome) (fuel : Nat) (hn : Nested templates fuel around) :
    checkUsages templates fuel around checked nodes = outcome := by
  induction h generalizing fuel with
  | done =>
    obtain ⟨fuel, rfl⟩ := hn.fuelled
    rfl
  | @pass _ checked r _ _ h rest ih =>
    obtain ⟨fuel, rfl⟩ := hn.fuelled
    rw [checkUsages_cons]
    cases hd : r.disabled with
    | true => exact ih (fuel + 1) hn
    | false =>
      rw [if_neg Bool.false_ne_true, checkUsage_pass fuel hd h]
      exact ih (fuel + 1) hn
  | loops hu inside =>
    obtain ⟨fuel, rfl⟩ := hn.fuelled
    rw [checkUsages_cons, hu.1]
    simp only [checkUsage, hu.2, List.contains_iff_mem, inside, if_true, Bool.false_eq_true, if_false]
    rfl
  | unordered hu out fresh ht ho =>
    obtain ⟨fuel, rfl⟩ := hn.fuelled
    rw [checkUsages_cons, hu.1]
    simp only [checkUsage, hu.2, List.contains_iff_mem, out, fresh, ht, ho, Bool.false_eq_true, if_false]
    rfl
  | fails hu out fresh ht ho _ ih =>
    obtain ⟨fuel, rfl⟩ := hn.fuelled
    rw [checkUsages_cons, hu.1, if_neg Bool.false_ne_true, checkUsage_enter fuel hu out fresh ht ho,
      ih fuel (hn.enter out ht)]
    rfl
  | enters hu out fresh ht ho _ _ ih ih' =>
    obtain ⟨fuel, rfl⟩ := hn.fuelled
    rw [checkUsages_cons, hu.1, if_neg Bool.false_ne_true, checkUsage_enter fuel hu out fresh ht ho,
      ih fuel (hn.enter out ht)]
    exact ih' (fuel + 1) hn

/-! ## What is refused -/

/-- An enabled node of the list uses the template, which exists. -/
def Uses (templates : Templates) (nodes : List Record) (id : String) : Prop :=
  ∃ r ∈ nodes, Employs r id ∧ ∃ t, templates.get? id = some t

/-- A node inside the first template uses the second. -/
def Within (templates : Templates) (id inner : String) : Prop :=
  ∃ t, templates.get? id = some t ∧ Uses templates t.nodes inner

/-- The templates that are reached from a list of nodes through enabled usage nodes. -/
def Reached (templates : Templates) (nodes : List Record) (id : String) : Prop :=
  ∃ first, Uses templates nodes first ∧ ReflTransGen (Within templates) first id

/-- A template whose nodes have no order, or one inside itself. -/
def Unsound (templates : Templates) (id : String) : Prop :=
  (∃ t fault, templates.get? id = some t ∧ resolve t.nodes = .error fault) ∨ TransGen (Within templates) id id

theorem Uses.cons (h : Uses templates nodes id) (r : Record) : Uses templates (r :: nodes) id := by
  obtain ⟨r', hr, h⟩ := h
  exact ⟨r', List.mem_cons_of_mem _ hr, h⟩

/-- The check fails at a template that is reached. All templates around the nodes are reached, and each has those
that the nodes use somewhere inside it. -/
theorem unsound_of_checks {root : List Record} (h : Checks templates around checked nodes (.error fault))
    (hreach : ∀ id, Uses templates nodes id → Reached templates root id)
    (haround : ∀ a ∈ around, (∃ t, templates.get? a = some t) ∧
      ∀ id, Uses templates nodes id → TransGen (Within templates) a id) :
    ∃ id, Reached templates root id ∧ Unsound templates id := by
  generalize ho : (Except.error fault : Except ConfigFault (List String)) = outcome at h
  induction h with
  | done => cases ho
  | pass _ _ ih =>
    exact ih (fun id hu => hreach id (hu.cons _))
      (fun a ha => ⟨(haround a ha).1, fun id hu => (haround a ha).2 id (hu.cons _)⟩) ho
  | @loops _ _ r nodes id hu inside =>
    obtain ⟨hknown, hin⟩ := haround id inside
    have huse : Uses templates (r :: nodes) id := ⟨r, List.mem_cons_self, hu, hknown⟩
    exact ⟨id, hreach id huse, .inr (hin id huse)⟩
  | @unordered _ _ r _ id t fault hu _ _ ht hfault =>
    exact ⟨id, hreach id ⟨r, List.mem_cons_self, hu, t, ht⟩, .inl ⟨t, fault, ht, hfault⟩⟩
  | @fails _ _ r nodes id t _ _ hu _ _ ht _ _ ih =>
    have huse : Uses templates (r :: nodes) id := ⟨r, List.mem_cons_self, hu, t, ht⟩
    obtain ⟨first, hfirst, hto⟩ := hreach id huse
    refine ih (fun inner hi => ⟨first, hfirst, hto.tail ⟨t, ht, hi⟩⟩) (List.forall_mem_cons.mpr ⟨?_, fun a ha => ?_⟩) ho
    · exact ⟨⟨t, ht⟩, fun inner hi => .single ⟨t, ht, hi⟩⟩
    · exact ⟨(haround a ha).1, fun inner hi => ((haround a ha).2 id huse).tail ⟨t, ht, hi⟩⟩
  | enters hu _ _ ht _ _ _ _ ih' =>
    exact ih' (fun id hu => hreach id (hu.cons _))
      (fun a ha => ⟨(haround a ha).1, fun id hu => (haround a ha).2 id (hu.cons _)⟩) ho

theorem UsesOnly.mem {ids : List String} (h : UsesOnly templates nodes ids) (hu : Uses templates nodes id) : id ∈ ids := by
  obtain ⟨r, hr, ⟨hd, hid⟩, t, ht⟩ := hu
  exact h r hr hd id t hid ht

/-- Layered templates have none but layered templates inside. -/
theorem Layered.closed {ids : List String} (h : Layered templates ids) (hid : id ∈ ids)
    (hin : Within templates id inner) : inner ∈ ids := by
  induction h with
  | nil => cases hid
  | @cons first ids t h known _ uses _ ih =>
    refine List.mem_cons_of_mem _ ?_
    rcases List.mem_cons.mp hid with rfl | hid
    · obtain ⟨t', ht', hu⟩ := hin
      obtain rfl := Option.some.inj (known.symm.trans ht')
      exact uses.mem hu
    · exact ih hid

theorem Layered.closed_star {ids : List String} (h : Layered templates ids) (hid : id ∈ ids)
    (hin : ReflTransGen (Within templates) id inner) : inner ∈ ids := by
  induction hin with
  | refl => exact hid
  | tail _ hin ih => exact h.closed ih hin

/-- Layered templates are sound: each is listed once, before those inside it. -/
theorem Layered.sound {ids : List String} (h : Layered templates ids) (hid : id ∈ ids) : ¬Unsound templates id := by
  induction h with
  | nil => cases hid
  | @cons first ids t h known ordered uses fresh ih =>
    rcases List.mem_cons.mp hid with rfl | hid
    · rintro (⟨t', fault, ht', hfault⟩ | hloop)
      · obtain rfl := Option.some.inj (known.symm.trans ht')
        obtain ⟨order, ho⟩ := ordered
        rw [ho] at hfault
        cases hfault
      · obtain ⟨mid, ⟨t', ht', hu⟩, hback⟩ := TransGen.head'_iff.mp hloop
        obtain rfl := Option.some.inj (known.symm.trans ht')
        exact fresh (h.closed_star (uses.mem hu) hback)
    · exact ih hid

/-- Whether a node counts for the check: it is enabled and uses a template that exists. -/
def counts (templates : Templates) (r : Record) : Bool := !r.disabled && (r.templateId?.bind templates.get?).isSome

theorem checkUsages_counts (fuel : Nat) : checkUsages templates (fuel + 1) [] checked (nodes.filter (counts templates)) =
    checkUsages templates (fuel + 1) [] checked nodes := by
  induction nodes generalizing checked with
  | nil => rfl
  | cons r nodes ih =>
    rw [List.filter_cons, checkUsages_cons]
    cases hc : counts templates r with
    | true =>
      rw [if_pos rfl, checkUsages_cons]
      exact congrArg _ (funext fun checked => ih)
    | false =>
      rw [if_neg Bool.false_ne_true, ih]
      cases hd : r.disabled with
      | true => rfl
      | false =>
        rw [if_neg Bool.false_ne_true, checkUsage_pass fuel hd fun id hu => ⟨by simp, .inr ?_⟩]
        · rfl
        · simpa [counts, hd, hu.2] using hc

/-- The check of templates ends, and fails exactly if a template is reached that has no order or is inside itself.
Nodes that are disabled and nodes that use a template that does not exist make no difference. -/
theorem templates_checked_exactly (nodes : List Record) (templates : Templates) :
    (∃ outcome, Checks templates [] [] nodes outcome ∧ checkTemplates nodes templates = outcome.map (fun _ => ()) ∧
      ∀ outcome', Checks templates [] [] nodes outcome' → outcome' = outcome) ∧
    ((∃ fault, checkTemplates nodes templates = .error fault) ↔
      ∃ id, Reached templates nodes id ∧ Unsound templates id) ∧
    checkTemplates (nodes.filter (counts templates)) templates = checkTemplates nodes templates := by
  have hrun : Checks templates [] [] nodes (checkUsages templates (templates.length + 1) [] [] nodes) :=
    checks_checkUsages _ .outermost
  refine ⟨⟨_, hrun, rfl, fun outcome' h => (h.result _ .outermost).symm⟩, ?_, ?_⟩
  · unfold checkTemplates
    cases hc : checkUsages templates (templates.length + 1) [] [] nodes with
    | error fault =>
      rw [hc] at hrun
      exact ⟨fun _ => unsound_of_checks hrun (fun id hu => ⟨id, hu, .refl⟩) (by simp), fun _ => ⟨fault, rfl⟩⟩
    | ok ids =>
      obtain ⟨hl, hu⟩ := layered_checkUsages _ .nil (by simp) List.nodup_nil (by simp) (by simp) hc
      constructor
      · rintro ⟨fault, h⟩
        cases h
      · rintro ⟨id, ⟨first, hfirst, hto⟩, hbad⟩
        exact absurd hbad (hl.good.sound (hl.good.closed_star (hu.mem hfirst) hto))
  · unfold checkTemplates
    rw [checkUsages_counts]

end Flowgraph.StartOrder
