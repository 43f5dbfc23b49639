import Flowgraph.Proofs.Accounting
import Flowgraph.Proofs.ScopeChain
/-! When settings are found. The environment of a level is what its definitions gave when the level was activated, seen
from around it at that moment, and a node is made of its record as it looked from its level when it was made. -/
namespace Flowgraph

/-- Where a level lies and what lies in it. -/
def Level.place (l : Level) : Option LevelKey × Dict LevelKey × Dict NodeKey := (l.parent, l.instances, l.active)

/-- What a lookup sees of a level. -/
def Level.scope (l : Level) : LevelKind × String × Option String × Option LevelKey × Dict Json :=
  (l.kind, l.id, l.config.label, l.parent, l.env)

namespace Engine

variable {e e' e'' : Engine} {i j k p : LevelKey} {l : Level} {n : NodeKey} {key : CallKey} {r : Record}

/-! ## What a lookup depends on -/

/-- Whether a usage node is about to be entered with this instance. -/
def hasInstall (e : Engine) (i : LevelKey) : Bool :=
  e.agenda.any fun
    | .install _ _ inst => inst == i
    | _ => false

/-- The same levels exist after the step, kept by the same. -/
structure Upholds (e e' : Engine) : Prop where
  count : e'.levels.size = e.levels.size
  place : ∀ j, (e'.level? j).map Level.place = (e.level? j).map Level.place
  standIns : ∀ i, e'.standIns i = e.standIns i
  kept : (e'.keptLevels, e'.keptNodes) = (e.keptLevels, e.keptNodes)
  running : (e'.global, e'.flows) = (e.global, e.flows)
  calls : e'.calls = e.calls
  installs : ∀ i, e'.hasInstall i = e.hasInstall i

theorem Upholds.keepsLevel (h : Upholds e e') (k : LevelKey) : e'.keepsLevel k = e.keepsLevel k := by
  obtain ⟨hl, -⟩ := Prod.mk.inj h.kept
  obtain ⟨hg, hf⟩ := Prod.mk.inj h.running
  unfold Engine.keepsLevel
  rw [hl, hg, hf, h.calls]
  exact congrArg _ (h.installs k)

theorem Upholds.keepsNode (h : Upholds e e') (n : NodeKey) : e'.keepsNode n = e.keepsNode n := by
  unfold Engine.keepsNode
  rw [(Prod.mk.inj h.kept).2, h.calls]

theorem Upholds.existsWithin (h : Upholds e e') (fuel : Nat) (k : LevelKey) :
    e'.existsWithin fuel k = e.existsWithin fuel k := by
  induction fuel generalizing k with
  | zero => rfl
  | succ fuel ih =>
    have hk := h.place k
    rw [Engine.existsWithin, Engine.existsWithin, h.keepsLevel, h.standIns, funext h.keepsNode]
    cases hl : e.level? k with
    | none =>
      rw [hl, Option.map_none, Option.map_eq_none_iff] at hk
      rw [hk]
    | some l =>
      rw [hl, Option.map_some] at hk
      obtain ⟨l', hl', hp⟩ := Option.map_eq_some_iff.mp hk
      have hparent : l'.parent = l.parent := congrArg Prod.fst hp
      rw [hl']
      dsimp only
      rw [hparent]
      cases l.parent with
      | none => rfl
      | some p =>
        have hpl := h.place p
        dsimp only
        rw [ih]
        cases hl₁ : e.level? p with
        | none =>
          rw [hl₁, Option.map_none, Option.map_eq_none_iff] at hpl
          rw [hpl]
        | some around =>
          rw [hl₁, Option.map_some] at hpl
          obtain ⟨around', hl₁', hpl⟩ := Option.map_eq_some_iff.mp hpl
          obtain ⟨hinst, hact⟩ := Prod.mk.inj (congrArg Prod.snd hpl)
          rw [hl₁']
          dsimp only
          rw [show around'.instances = around.instances from hinst, show around'.active = around.active from hact]

theorem standIns_of_still (h : e'.still = e.still) (i : LevelKey) : e'.standIns i = e.standIns i := by
  have hstill (e : Engine) : e.standIns i =
      (((e.nodes.map Node.still).toList.zipIdx).filter fun x => isStandIn x.1 i).map (·.2) := by
    rw [Array.toList_map, List.zipIdx_map, List.filter_map, List.map_map]
    rfl
  rw [hstill, hstill, nodes_of_still h]

/-- Messages and tasks keep no level. -/
theorem Upholds.of_still (h : e'.still = e.still) (hi : ∀ i, e'.hasInstall i = e.hasInstall i) : Upholds e e' := by
  have hkept := congrArg (fun x : Engine => (x.keptLevels, x.keptNodes)) h
  have hrunning := congrArg (fun x : Engine => (x.global, x.flows)) h
  exact ⟨by rw [levels_of_still h], fun j => by rw [level?_of_still h], standIns_of_still h, hkept, hrunning,
    calls_of_still h, hi⟩

theorem Upholds.hasLevel (h : Upholds e e') (k : LevelKey) : e'.hasLevel k = e.hasLevel k := by
  unfold Engine.hasLevel levelCount
  rw [h.count, h.existsWithin]

/-- A lookup from a level sees the same if all levels below a key larger than its own look the same. -/
theorem Upholds.settingFrom (h : Upholds e e') (hlaid : Laid e) (ho : e'.outerSetting = e.outerSetting) {x : LevelKey}
    (hs : ∀ j, j < x → (e'.level? j).map Level.scope = (e.level? j).map Level.scope) (fuel : Nat) (hk : k < x) :
    e'.settingFrom fuel k = e.settingFrom fuel k := by
  induction fuel generalizing k with
  | zero => rfl
  | succ fuel ih =>
    funext name
    have hsk := hs k hk
    rw [Engine.settingFrom, Engine.settingFrom]
    cases hl : e.level? k with
    | none =>
      rw [hl, Option.map_none, Option.map_eq_none_iff] at hsk
      rw [hsk]
    | some l =>
      rw [hl, Option.map_some] at hsk
      obtain ⟨l', hl', hscope⟩ := Option.map_eq_some_iff.mp hsk
      obtain ⟨hkind, hid, hlabel, hparent, henv⟩ : l'.kind = l.kind ∧ l'.id = l.id ∧
          l'.config.label = l.config.label ∧ l'.parent = l.parent ∧ l'.env = l.env := by
        simpa only [Level.scope, Prod.mk.injEq] using hscope
      have hreserved : l'.reserved? name = l.reserved? name := by
        unfold Level.reserved?
        rw [hkind, hid, hlabel]
      rw [hl']
      dsimp only
      rw [hparent, henv, hreserved, ho]
      cases hp : l.parent with
      | none => rfl
      | some p =>
        have hpx : p < x := Nat.lt_trans (hlaid.parent_lt hl hp) hk
        simp only [ih hpx, h.hasLevel]

theorem Upholds.setting (h : Upholds e e') (hlaid : Laid e) (ho : e'.outerSetting = e.outerSetting) {x : LevelKey}
    (hs : ∀ j, j < x → (e'.level? j).map Level.scope = (e.level? j).map Level.scope) (hk : k < x) :
    e'.setting k = e.setting k := by
  unfold Engine.setting levelCount
  rw [h.count, h.settingFrom hlaid ho hs _ hk]

/-- The step leaves everything around a level as it is. -/
theorem Upholds.settingAround (h : Upholds e e') (hlaid : Laid e) (ho : e'.outerSetting = e.outerSetting)
    (hs : ∀ j, j < k → (e'.level? j).map Level.scope = (e.level? j).map Level.scope) :
    e'.settingAround k = e.settingAround k := by
  funext name
  have hk := h.place k
  cases hl : e.level? k with
  | none =>
    rw [hl, Option.map_none, Option.map_eq_none_iff] at hk
    unfold Engine.settingAround
    rw [hl, hk]
  | some l =>
    rw [hl, Option.map_some] at hk
    obtain ⟨l', hl', hp⟩ := Option.map_eq_some_iff.mp hk
    have hparent : l'.parent = l.parent := congrArg Prod.fst hp
    cases hp : l.parent with
    | none => rw [settingAround_outermost hl hp, settingAround_outermost hl' (hparent.trans hp), ho]
    | some p =>
      rw [settingAround_within hl hp, settingAround_within hl' (hparent.trans hp), h.hasLevel,
        h.setting hlaid ho hs (hlaid.parent_lt hl hp)]

/-- Work on the agenda that enters no usage node keeps nothing. -/
theorem hasInstall_push {actions : List Action} (ha : ∀ a ∈ actions, a.installsIn? = none) (i : LevelKey) :
    (e.push actions).hasInstall i = e.hasInstall i := by
  unfold hasInstall push
  rw [List.any_append, Bool.or_eq_right_iff_imp]
  intro h
  obtain ⟨a, hm, ha'⟩ := List.any_eq_true.mp h
  have hnone := ha a hm
  cases a with
  | install => cases hnone
  | _ => cases ha'

/-- The activation of a level leaves everything around it as it is. -/
theorem settingAround_activated (hlaid : Laid e) (k : LevelKey) (c : FlowConfig) (order : List Nat) :
    (e.activated k c order).settingAround k = e.settingAround k := by
  refine Upholds.settingAround ⟨by simp [activated, push, modifyLevel], fun j => ?_, fun _ => rfl, rfl, rfl, rfl, fun i => ?_⟩
    hlaid rfl fun j hj => ?_
  · rw [level?_activated]
    split
    · cases e.level? j <;> rfl
    · rfl
  · refine hasInstall_push (e := e.modifyLevel k _) (fun a ha => ?_) i
    rcases List.mem_append.mp ha with ha | ha
    · obtain ⟨r, -, rfl⟩ := mem_creations ha
      rfl
    · obtain rfl := List.mem_singleton.mp ha
      rfl
  · rw [level?_activated, if_neg (Nat.ne_of_gt hj)]

/-- The work that comes next keeps nothing, unless it enters a usage node. -/
theorem setting_pop (hlaid : Laid e) {a : Action} {rest : List Action} (ha : e.agenda = a :: rest)
    (hi : a.installsIn? = none) (k : LevelKey) : ({ e with agenda := rest } : Engine).setting k = e.setting k := by
  refine Upholds.setting ⟨rfl, fun _ => rfl, fun _ => rfl, rfl, rfl, rfl, fun i => ?_⟩ hlaid rfl (fun _ _ => rfl)
    (Nat.lt_succ_self k)
  unfold hasInstall
  rw [ha, List.any_cons]
  cases a with
  | install => cases hi
  | _ => rfl

end Engine
end Flowgraph
