import Mathlib.Data.List.Induction
import Flowgraph.Proofs.Routing
/-! How settings are found. A name is looked up from a level outward, and the nearest level that says anything of it
decides; what surrounds all flows comes last. -/
namespace Flowgraph

/-- A name behind marks that each send a lookup one level further out. -/
def outerName : Nat → String → String
  | 0, name => name
  | n + 1, name => "$parent." ++ outerName n name

theorem outerSettingName?_mark (name : String) : outerSettingName? ("$parent." ++ name) = some name := by
  have hp : "$parent.".toList.isPrefixOf ("$parent." ++ name).toList = true := by
    rw [String.toList_append, List.isPrefixOf_iff_prefix]
    exact List.prefix_append _ _
  unfold outerSettingName?
  dsimp only
  rw [if_pos hp, String.toList_append, List.drop_left, String.ofList_toList]

/-- The last of several definitions of a name. -/
def EnvEntry.lastOf? (entries : List EnvEntry) (name : String) : Option EnvEntry :=
  entries.reverse.find? (·.name == name)

/-- The last definition of a name counts. -/
theorem Scope.get?_evaluate (outer : Lookup) (entries : List EnvEntry) (name : String) :
    (evaluate outer entries).get? name = (EnvEntry.lastOf? entries name).map (valueOf outer) := by
  unfold evaluate Dict.ofList EnvEntry.lastOf?
  induction entries using List.reverseRecOn with
  | nil => rfl
  | append_singleton entries entry ih =>
    rw [List.map_append, List.foldl_append, List.reverse_append]
    change Dict.get? (Dict.insert _ entry.name (valueOf outer entry)) name =
      ((entry :: entries.reverse).find? (·.name == name)).map _
    rw [Dict.get?_insert, ih, List.find?_cons]
    by_cases hn : entry.name = name
    · simp [hn]
    · simp [hn, beq_eq_false_iff_ne.mpr hn]

namespace Level

/-- A name that a level keeps for itself: a tab for its id and its label, an instance for the id and the name of its
usage node. -/
inductive Reserves (l : Level) : String → Json → Prop
  | flowId (hk : l.kind = .tab) : Reserves l "FLOW_ID" (.str l.id)
  | flowName {label : String} (hk : l.kind = .tab) (hl : l.config.label = some label) :
      Reserves l "FLOW_NAME" (.str label)
  | nodeId {b : Binding} (hk : l.kind = .expansion b) : Reserves l "NODE_ID" (.str b.usage.id)
  | nodeName {b : Binding} {name : String} (hk : l.kind = .expansion b) (hn : b.usage.name? = some name) :
      Reserves l "NODE_NAME" (.str name)

variable {l : Level} {name : String} {v : Json}

theorem reserved?_eq_some : l.reserved? name = some v ↔ l.Reserves name v := by
  constructor
  · intro h
    unfold reserved? at h
    split at h
    · rename_i hk
      cases h
      exact .flowId hk
    · rename_i hk
      obtain ⟨label, hl, rfl⟩ := Option.map_eq_some_iff.mp h
      exact .flowName hk hl
    · rename_i b hk
      cases h
      exact .nodeId hk
    · rename_i b hk
      obtain ⟨name, hn, rfl⟩ := Option.map_eq_some_iff.mp h
      exact .nodeName hk hn
    · cases h
  · rintro (hk | ⟨hk, hl⟩ | hk | ⟨hk, hn⟩)
    · simp [reserved?, hk]
    · simp [reserved?, hk, hl]
    · simp [reserved?, hk]
    · simp [reserved?, hk, hn]

/-- What a level itself says of a name. -/
def says? (l : Level) (name : String) : Option Json := (l.reserved? name).or (l.env.get? name)

/-- Reserved names win over the environment. -/
theorem says?_eq_some : l.says? name = some v ↔
    l.Reserves name v ∨ (∀ w, ¬l.Reserves name w) ∧ l.env.get? name = some v := by
  unfold says?
  cases hr : l.reserved? name with
  | some w =>
    have hw := reserved?_eq_some.mp hr
    rw [Option.some_or, ← reserved?_eq_some, hr]
    exact ⟨.inl, fun h => h.resolve_right fun h => h.1 w hw⟩
  | none =>
    have hn (w : Json) : ¬l.Reserves name w := fun h => by simp [reserved?_eq_some.mpr h] at hr
    rw [Option.none_or]
    exact ⟨fun h => .inr ⟨hn, h⟩, fun h => h.elim (fun h => absurd h (hn v)) (·.2)⟩

end Level

namespace Engine

variable {e e' : Engine} {j k p : LevelKey} {l : Level} {ls : List Level}

/-! ## One level -/

/-- Fuel enough for all levels around a level is as good as any other. -/
theorem settingFrom_eq (hl : Laid e) (fuel fuel' : Nat) (h : k < fuel) (h' : k < fuel') :
    e.settingFrom fuel k = e.settingFrom fuel' k := by
  induction fuel generalizing k fuel' with
  | zero => cases h
  | succ fuel ih =>
    cases fuel' with
    | zero => cases h'
    | succ fuel' =>
      funext name
      rw [settingFrom, settingFrom]
      cases hk : e.level? k with
      | none => rfl
      | some l =>
        dsimp only
        cases hp : l.parent with
        | none => rfl
        | some p =>
          have hlt := hl.parent_lt hk hp
          dsimp only
          rw [ih fuel' (Nat.lt_of_lt_of_le hlt (Nat.le_of_lt_succ h)) (Nat.lt_of_lt_of_le hlt (Nat.le_of_lt_succ h'))]

theorem settingAround_outermost (hl : e.level? k = some l) (hp : l.parent = none) (name : String) :
    e.settingAround k name = e.outerSetting name := by
  unfold settingAround
  rw [hl]
  dsimp only
  rw [hp]

theorem settingAround_within (hl : e.level? k = some l) (hp : l.parent = some p) (name : String) :
    e.settingAround k name = if e.hasLevel p then e.setting p name else none := by
  unfold settingAround
  rw [hl]
  dsimp only
  rw [hp]

/-- A lookup further out, with as much fuel as is left. -/
theorem settingAround_eq (hlaid : Laid e) (hl : e.level? k = some l) {fuel : Nat} (hfuel : e.levelCount = fuel + 1)
    (name : String) : (match l.parent with
      | none => e.outerSetting name
      | some p => if e.hasLevel p then e.settingFrom fuel p name else none) = e.settingAround k name := by
  have hlt : k < fuel + 1 := hfuel ▸ level?_lt e k hl
  cases hp : l.parent with
  | none => exact (settingAround_outermost hl hp name).symm
  | some p =>
    have hpk := hlaid.parent_lt hl hp
    have hfrom : e.setting p = e.settingFrom fuel p := by
      unfold setting
      rw [hfuel, settingFrom_eq hlaid (fuel + 1) fuel (Nat.lt_trans hpk hlt)
        (Nat.lt_of_lt_of_le hpk (Nat.le_of_lt_succ hlt))]
    rw [settingAround_within hl hp, hfrom]

/-- A name that is marked is looked up around the level, and any other first at the level itself. -/
theorem setting_eq (hlaid : Laid e) (hl : e.level? k = some l) (name : String) : e.setting k name =
    match outerSettingName? name with
    | some rest => e.settingAround k rest
    | none => (l.says? name).or (e.settingAround k name) := by
  have hlt := level?_lt e k hl
  obtain ⟨fuel, hfuel⟩ : ∃ fuel, e.levelCount = fuel + 1 := ⟨e.levels.size - 1, by unfold levelCount; omega⟩
  unfold setting
  rw [hfuel, settingFrom, hl]
  dsimp only
  cases outerSettingName? name with
  | some rest => exact settingAround_eq hlaid hl hfuel rest
  | none =>
    dsimp only
    unfold Level.says?
    cases l.reserved? name with
    | some v => rfl
    | none =>
      dsimp only
      cases l.env.get? name with
      | some v => rfl
      | none => exact settingAround_eq hlaid hl hfuel name

/-- What is around a level is found with one mark. -/
theorem setting_outer (hlaid : Laid e) (hl : e.level? k = some l) (name : String) :
    e.setting k (outerName 1 name) = e.settingAround k name := by
  rw [setting_eq hlaid hl, outerName, outerName, outerSettingName?_mark]

/-! ## All levels outward -/

/-- A level and those around it, from inside outward, all of which still exist. -/
inductive Chain (e : Engine) : LevelKey → List Level → Prop
  | outermost {k : LevelKey} {l : Level} (hl : e.level? k = some l) (hp : l.parent = none) : Chain e k [l]
  | within {k p : LevelKey} {l : Level} {ls : List Level} (hl : e.level? k = some l) (hp : l.parent = some p)
      (hx : e.hasLevel p = true) (h : Chain e p ls) : Chain e k (l :: ls)

/-- The nearest level that says anything of a name decides; otherwise what surrounds all flows does. -/
def nearest (e : Engine) (ls : List Level) (name : String) : Option Json :=
  (ls.findSome? (·.says? name)).or (e.outerSetting name)

/-- A lookup passes over as many levels as there are marks, and goes outward from there. -/
theorem Chain.setting (hlaid : Laid e) (h : Chain e k ls) {n : Nat} (hn : n ≤ ls.length) {name : String}
    (hbare : outerSettingName? name = none) : e.setting k (outerName n name) = e.nearest (ls.drop n) name := by
  induction h generalizing n with
  | @outermost k l hl hp =>
    have haround := settingAround_outermost hl hp
    rw [List.length_singleton] at hn
    rcases Nat.le_one_iff_eq_zero_or_eq_one.mp hn with rfl | rfl
    · rw [outerName, setting_eq hlaid hl, hbare, haround]
      cases hs : l.says? name <;> simp [nearest, hs]
    · rw [setting_outer hlaid hl, haround]
      rfl
  | @within k p l ls hl hp hx h ih =>
    have haround (name : String) : e.settingAround k name = e.setting p name :=
      (settingAround_within hl hp name).trans (if_pos hx)
    cases n with
    | zero =>
      rw [outerName, setting_eq hlaid hl, hbare, haround]
      have h₀ := ih (Nat.zero_le _)
      rw [outerName] at h₀
      rw [h₀, List.drop_zero, List.drop_zero]
      cases hs : l.says? name <;> simp [nearest, hs]
    | succ n =>
      rw [outerName, setting_eq hlaid hl, outerSettingName?_mark]
      exact (haround _).trans <| ih (Nat.le_of_succ_le_succ hn)

end Engine
end Flowgraph
