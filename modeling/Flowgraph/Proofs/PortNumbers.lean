import Flowgraph.Proofs.Copies
import Flowgraph.Proofs.Making
import Flowgraph.Proofs.Stopped
/-! Port numbers that cannot be counted on from. The ports of a node are counted in words of 64 bits, so the last number
has no successor: whether a template can be expanded, and the level around started, depends on the wires that lead out of
it. -/
namespace Flowgraph

/-- A fold fails exactly where one of its steps does, if what decides about a step is kept. -/
theorem foldlM_eq_none_iff {α β : Type} {f : β → α → Option β} {P : β → Prop} {Q : α → Prop} {xs : List α}
    (keep : ∀ b a b', P b → f b a = some b' → P b') (step : ∀ b, ∀ a ∈ xs, P b → (f b a = none ↔ Q a)) {b : β}
    (hb : P b) : xs.foldlM f b = none ↔ ∃ a ∈ xs, Q a := by
  induction xs generalizing b with
  | nil => simp
  | cons x xs ih =>
    have hx := step b x List.mem_cons_self hb
    rw [List.foldlM_cons, List.exists_mem_cons_iff]
    cases hf : f b x with
    | none => exact ⟨fun _ => .inl (hx.mp hf), fun _ => rfl⟩
    | some b' =>
      have hno : ¬Q x := fun hq => by
        rw [hx.mpr hq] at hf
        cases hf
      rw [or_iff_right hno]
      exact ih (fun b a ha => step b a (List.mem_cons_of_mem _ ha)) (keep b x b' hb hf)

theorem bind_some_eq_none_iff {α β : Type} {x : Option α} {f : α → β} :
    (x.bind fun a => some (f a)) = none ↔ x = none := by
  cases x with
  | none => exact ⟨fun _ => rfl, fun _ => rfl⟩
  | some a => exact ⟨fun h => absurd h (Option.some_ne_none _), fun h => absurd h (Option.some_ne_none _)⟩

/-- One step after another fails if the first does, or else the second. -/
theorem bind_eq_none_iff_or {α β : Type} {x : Option α} {f : α → Option β} {P Q : Prop} (hx : x = none ↔ P)
    (hf : ∀ a, x = some a → (f a = none ↔ Q)) : x.bind f = none ↔ P ∨ Q := by
  cases x with
  | none => exact ⟨fun _ => .inl (hx.mp rfl), fun _ => rfl⟩
  | some a =>
    rw [Option.bind_some, hf a rfl, or_iff_right fun hp => absurd (hx.mpr hp) (Option.some_ne_none a)]

/-- The number of a port to which no further one can be counted. -/
def PortWire.Last (w : PortWire) : Prop := 2 ^ 64 ≤ w.port + 1

namespace Binding

variable {b : Binding} {nodes nodes' : List Record} {ids : List NodeId} {id : NodeId} {targets : List NodeId}

theorem extendPort?_eq_none_iff (wires : Wires) (port : Nat) (targets : List NodeId) :
    extendPort? wires port targets = none ↔ 2 ^ 64 ≤ port + 1 := by
  unfold extendPort?
  split
  · rename_i h
    exact ⟨fun hn => absurd hn (Option.some_ne_none _), fun hle => absurd h (Nat.not_lt.mpr hle)⟩
  · rename_i h
    exact ⟨fun _ => Nat.not_lt.mp h, fun _ => rfl⟩

/-- Targets cannot be joined to a node that is there, behind the last port. -/
theorem connect?_eq_none_iff (nodes : List Record) (id : NodeId) (port : Nat) (targets : List NodeId) :
    connect? nodes id port targets = none ↔ id ∈ nodes.map (·.id) ∧ 2 ^ 64 ≤ port + 1 := by
  unfold connect?
  cases hi : nodes.findIdx? (·.id == id) with
  | none =>
    refine ⟨fun hn => absurd hn (Option.some_ne_none _), fun ⟨hid, _⟩ => ?_⟩
    obtain ⟨r, hr, hid⟩ := List.mem_map.mp hid
    have hne := List.findIdx?_eq_none_iff.mp hi r hr
    rw [hid, beq_self_eq_true] at hne
    cases hne
  | some i =>
    obtain ⟨hlt, hid, -⟩ := List.findIdx?_eq_some_iff_getElem.mp hi
    have hmem : id ∈ nodes.map (·.id) := List.mem_map.mpr ⟨nodes[i], List.getElem_mem hlt, by simpa using hid⟩
    rw [and_iff_right hmem, ← extendPort?_eq_none_iff nodes[i].outputs port targets]
    dsimp only
    rw [List.getElem?_eq_getElem hlt]
    exact bind_some_eq_none_iff

/-! ## Ports -/

theorem connectOutput?_eq_none_iff {port : Port} (targets : List NodeId) (hids : nodes.map (·.id) = ids) :
    b.connectOutput? nodes port targets = none ↔
      ∃ w ∈ port.wires, w.node ≠ b.template.id ∧ b.rename w.node ∈ ids ∧ w.Last := by
  refine foldlM_eq_none_iff (P := fun s : List Record × List NodeId => s.1.map (·.id) = ids)
    (fun s w s' hs hstep => ?_) (fun s w _ hs => ?_) hids
  · dsimp only at hstep
    split at hstep
    · cases hstep
      exact hs
    · obtain ⟨ms, hms, rfl⟩ := Option.map_eq_some_iff.mp hstep
      exact (ids_connect? hms).trans hs
  · dsimp only
    split
    · rename_i hout
      exact ⟨fun hn => absurd hn (Option.some_ne_none _), fun h => absurd hout h.1⟩
    · rename_i hout
      rw [Option.map_eq_none_iff, connect?_eq_none_iff, hs, and_iff_right (show w.node ≠ b.template.id from hout)]
      rfl

theorem connectOutputs?_eq_none_iff (outer : Wires) (hids : nodes.map (·.id) = ids) :
    b.connectOutputs? outer nodes = none ↔ ∃ port ∈ b.template.outputs,
      ∃ w ∈ port.wires, w.node ≠ b.template.id ∧ b.rename w.node ∈ ids ∧ w.Last := by
  have hfold : b.connectOutputs? outer nodes = none ↔ ∃ p ∈ b.template.outputs.zipIdx,
      ∃ w ∈ p.1.wires, w.node ≠ b.template.id ∧ b.rename w.node ∈ ids ∧ w.Last := by
    refine foldlM_eq_none_iff (P := fun s : List Record × List NodeId => s.1.map (·.id) = ids)
      (fun s p s' hs hstep => ?_) (fun s p _ hs => ?_) hids
    · obtain ⟨⟨ms, more⟩, hms, hstep⟩ := Option.bind_eq_some_iff.mp hstep
      cases hstep
      exact (ids_of_bare (connectOutput?_bare hms)).trans hs
    · rw [← connectOutput?_eq_none_iff (outer[p.2]?.getD []) hs]
      exact bind_some_eq_none_iff
  rw [hfold]
  refine ⟨fun ⟨p, hp, h⟩ => ⟨p.1, List.fst_mem_of_mem_zipIdx hp, h⟩, fun ⟨port, hport, h⟩ => ?_⟩
  obtain ⟨i, hi⟩ := List.getElem?_of_mem hport
  exact ⟨(port, i), List.mem_zipIdx_iff_getElem?.mpr hi, h⟩

theorem addSink?_eq_none_iff {port : Option Port} {sink : Option NodeId} (hp : port.isSome = sink.isSome) (type : String)
    (hids : nodes.map (·.id) = ids) :
    b.addSink? nodes port sink type = none ↔ ∃ p ∈ port, ∃ w ∈ p.wires, b.rename w.node ∈ ids ∧ w.Last := by
  cases port with
  | none => simp [addSink?]
  | some p =>
    obtain ⟨sink, rfl⟩ := Option.isSome_iff_exists.mp hp.symm
    have hport : b.connectPort? nodes p [sink] = none ↔ ∃ w ∈ p.wires, b.rename w.node ∈ ids ∧ w.Last := by
      refine foldlM_eq_none_iff (P := fun ms : List Record => ms.map (·.id) = ids)
        (fun ms w ms' hs hstep => (ids_connect? hstep).trans hs) (fun ms w _ hs => ?_) hids
      rw [connect?_eq_none_iff, hs]
      rfl
    simp only [Option.mem_some_iff, exists_eq_left']
    rw [← hport]
    exact bind_some_eq_none_iff

theorem ids_addSink? {port : Option Port} {sink : Option NodeId} {type : String} (hp : port.isSome = sink.isSome)
    (h : b.addSink? nodes port sink type = some nodes') (hids : nodes.map (·.id) = ids) :
    nodes'.map (·.id) = ids ++ sink.toList := by
  rw [ids_of_bare (addSink?_bare hp h), List.map_append, hids, List.map_map]
  exact congrArg (ids ++ ·) (List.map_id _)

/-! ## The whole expansion -/

/-- The ids of the copies of an instance. -/
def copyIds (b : Binding) : List NodeId := b.template.nodes.map fun r => b.rename r.id

/-- A wire that leads out of a template, from a node that is there when the wire is joined. -/
inductive Reaches (b : Binding) (w : PortWire) : Prop
  | output {port : Port} (hp : port ∈ b.template.outputs) (hw : w ∈ port.wires) (hout : w.node ≠ b.template.id)
      (hid : b.rename w.node ∈ b.copyIds)
  | status {port : Port} (hp : port ∈ b.template.status) (hw : w ∈ port.wires) (hid : b.rename w.node ∈ b.copyIds)
  | complete {port : Port} (hp : port ∈ b.template.complete) (hw : w ∈ port.wires)
      (hid : b.rename w.node ∈ b.copyIds ++ b.statusSink.toList)

/-- A template cannot be expanded exactly if a wire that leads out of it has the last port number. -/
theorem expand?_eq_none_iff (hb : b.Fitting) (outer : Wires) :
    b.expand? outer = none ↔ ∃ w, b.Reaches w ∧ w.Last := by
  have hcopies : (b.template.nodes.map b.copy).map (·.id) = b.copyIds := List.map_map ..
  have hstages : b.expand? outer = none ↔
      (∃ port ∈ b.template.outputs, ∃ w ∈ port.wires, w.node ≠ b.template.id ∧ b.rename w.node ∈ b.copyIds ∧ w.Last) ∨
      (∃ port ∈ b.template.status, ∃ w ∈ port.wires, b.rename w.node ∈ b.copyIds ∧ w.Last) ∨
      ∃ port ∈ b.template.complete, ∃ w ∈ port.wires, b.rename w.node ∈ b.copyIds ++ b.statusSink.toList ∧ w.Last := by
    refine bind_eq_none_iff_or (connectOutputs?_eq_none_iff outer hcopies) fun made h₁ => ?_
    have hids : made.1.map (·.id) = b.copyIds := (ids_of_bare (connectOutputs?_bare h₁)).trans hcopies
    refine bind_eq_none_iff_or (addSink?_eq_none_iff hb.status statusSinkType hids) fun n₂ h₂ => ?_
    rw [← addSink?_eq_none_iff hb.complete completeSinkType (ids_addSink? hb.status h₂ hids)]
    exact bind_some_eq_none_iff
  rw [hstages]
  constructor
  · rintro (⟨port, hp, w, hw, hout, hid, hlast⟩ | ⟨port, hp, w, hw, hid, hlast⟩ | ⟨port, hp, w, hw, hid, hlast⟩)
    · exact ⟨w, .output hp hw hout hid, hlast⟩
    · exact ⟨w, .status hp hw hid, hlast⟩
    · exact ⟨w, .complete hp hw hid, hlast⟩
  · rintro ⟨w, hreaches, hlast⟩
    cases hreaches with
    | output hp hw hout hid => exact .inl ⟨_, hp, w, hw, hout, hid, hlast⟩
    | status hp hw hid => exact .inr (.inl ⟨_, hp, w, hw, hid, hlast⟩)
    | complete hp hw hid => exact .inr (.inr ⟨_, hp, w, hw, hid, hlast⟩)

end Binding

namespace Engine

variable {e : Engine} {k : LevelKey} {l : Level}

/-- The making of an instance, and with it all that was still to be made and started, breaks off exactly if a wire that
leads out of the template has the last port number; whatever the usage node is wired to, the template cannot be expanded
then, and can otherwise. All ports to which something has been joined are there. -/
theorem making_breaks_iff (hl : e.level? k = some l) (hb : e.broken = false) (usage : Record) (t : Template) :
    ((e.createInstance k usage t).broken = true ↔ ∃ w, (Binding.make t usage e.nextPrivate).Reaches w ∧ w.Last) ∧
    ((e.createInstance k usage t).broken = true → (e.createInstance k usage t).agenda = []) ∧
    (∀ outer, (Binding.make t usage e.nextPrivate).expand? outer = none ↔
      ∃ w, (Binding.make t usage e.nextPrivate).Reaches w ∧ w.Last) ∧
    ∀ wires port targets wires', Binding.extendPort? wires port targets = some wires' → port < wires'.length := by
  have hexpand := Binding.expand?_eq_none_iff (Binding.fitting_make t usage e.nextPrivate)
  have hmade : ((e.createInstance k usage t).broken = true ↔
        (Binding.make t usage e.nextPrivate).expand? usage.outputs = none) ∧
      ((e.createInstance k usage t).broken = true → (e.createInstance k usage t).agenda = []) := by
    have hsafe {e' : Engine} {nodes : List Record} (h : e'.broken = e.broken)
        (hx : (Binding.make t usage e.nextPrivate).expand? usage.outputs = some nodes) :
        (e'.broken = true ↔ (Binding.make t usage e.nextPrivate).expand? usage.outputs = none) ∧
          (e'.broken = true → e'.agenda = []) := by
      rw [h, hb, hx]
      exact ⟨⟨fun h => absurd h Bool.false_ne_true, fun h => absurd h (Option.some_ne_none _)⟩,
        fun h => absurd h Bool.false_ne_true⟩
    have hopens := opens_createInstance e k usage t
    generalize e.createInstance k usage t = e' at hopens ⊢
    cases hopens with
    | nowhere hnone =>
      rw [hl] at hnone
      cases hnone
    | breaks hx => exact ⟨⟨fun _ => hx, fun _ => rfl⟩, fun _ => rfl⟩
    | collapses _ hx => exact hsafe (broken_failCreation _ _ _ _) hx
    | opens _ hx => exact hsafe rfl hx
  refine ⟨hmade.1.trans (hexpand _), hmade.2, hexpand, fun wires port targets wires' h => ?_⟩
  rw [Binding.length_extendPort? h]
  exact Nat.lt_of_lt_of_le (Nat.lt_succ_self port) (Nat.le_max_right _ _)

end Engine

namespace Session
open Engine

/-- A tab with the usage node of a template, an output of which is wired to the last port that can be named. -/
def lastPortRecords : List Json := [
  .obj [("id", .str "t"), ("type", .str "tab")],
  .obj [("id", .str "s"), ("out", .arr [.obj [("wires", .arr [.obj [("id", .str "a"), ("port", .nat (2 ^ 64 - 1))]])]]),
    ("type", .str "subflow")],
  .obj [("id", .str "a"), ("type", .str "test"), ("z", .str "s")],
  .obj [("id", .str "u"), ("type", .str "subflow:s"), ("z", .str "t")],
  .obj [("id", .str "n"), ("type", .str "test"), ("z", .str "t")]]

def lastPortTab : Session :=
  ⟨{ ((Engine.make .instrumented .standalone [] [] 500).addLevel (.make .tab none (firstTab lastPortRecords))).1 with
    keptLevels := [0] }, some 0, .empty, []⟩

def lastPortTemplate : Template := ((firstTab lastPortRecords).templates.get? "s").getD default

def lastPortUsage : Record := ((firstTab lastPortRecords).nodes.find? (·.id == "u")).getD default

theorem lastPortTab_run : (Deployment.parse lastPortRecords).isOk = true ∧
    ((lastPortTab.engine.level? 0).isSome = true ∧ lastPortTab.engine.broken = false ∧
      (lastPortTab.engine.createInstance 0 lastPortUsage lastPortTemplate).broken = true) ∧
    (lastPortTab.start 0 none).2.engine.broken = true ∧
    ((lastPortTab.start 0 none).2.engine.level? 0).map (·.active) = some [] := by
  decide +kernel

/-- The records are accepted, but their tab is not started: none of its nodes is made. -/
theorem last_port_stops_start : (Deployment.parse lastPortRecords).isOk = true ∧
    (∃ w, (Binding.make lastPortTemplate lastPortUsage lastPortTab.engine.nextPrivate).Reaches w ∧ w.Last) ∧
    (lastPortTab.start 0 none).2.engine.broken = true ∧
    ((lastPortTab.start 0 none).2.engine.level? 0).map (·.active) = some [] := by
  obtain ⟨hparse, ⟨hlevel, hb, hmade⟩, hstart⟩ := lastPortTab_run
  obtain ⟨l, hl⟩ := Option.isSome_iff_exists.mp hlevel
  exact ⟨hparse, (making_breaks_iff hl hb lastPortUsage lastPortTemplate).1.mp hmade, hstart⟩

end Session
end Flowgraph
