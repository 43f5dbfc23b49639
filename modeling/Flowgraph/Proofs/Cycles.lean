import Mathlib.Logic.Relation
import Flowgraph.Proofs.Precedence
/-! A flow has no creation order exactly if its config nodes name each other in a circle. -/
namespace Flowgraph.StartOrder

open Relation

variable {nodes : List Record} {order path : List Nat} {pos p : Nat} {fault : ConfigFault}

theorem of_bind_error {α β ε : Type} {x : Except ε α} {g : α → Except ε β} {fault : ε} (h : x >>= g = .error fault) :
    x = .error fault ∨ ∃ a, x = .ok a ∧ g a = .error fault := by
  cases x with
  | error fault' =>
    cases h
    exact .inl rfl
  | ok a => exact .inr ⟨a, rfl, h⟩

/-- A fold fails with the fault of one of its steps. -/
theorem foldlM_error {α β ε : Type} {f : β → α → Except ε β} {xs : List α} {b : β} {fault : ε}
    (h : xs.foldlM f b = .error fault) : ∃ a ∈ xs, ∃ b', f b' a = .error fault := by
  induction xs generalizing b with
  | nil => cases h
  | cons x xs ih =>
    rw [List.foldlM_cons] at h
    obtain h | ⟨c, -, h⟩ := of_bind_error h
    · exact ⟨x, List.mem_cons_self, b, h⟩
    · obtain ⟨a, ha, hf⟩ := ih h
      exact ⟨a, List.mem_cons_of_mem _ ha, hf⟩

/-! ## Circles of config nodes -/

/-- The node at `p` is one that the node at `pos` needs. -/
def Needs (nodes : List Record) (pos p : Nat) : Prop := p ∈ needs nodes pos

/-- An edge between enabled config nodes: the first names the second. -/
def Leads (nodes : List Record) (pos p : Nat) : Prop :=
  EnabledConfig nodes pos ∧ EnabledConfig nodes p ∧ Names nodes pos p

/-- A visit fails at a node that needs itself in the end. All that waits on the path needs the visited node, so
coming back to the path closes a circle; and the path cannot outgrow the nodes, so there is fuel enough. -/
theorem circle_of_visit (fuel : Nat) (hpos : pos < nodes.length) (hwait : ∀ w ∈ path, TransGen (Needs nodes) w pos)
    (hin : ∀ w ∈ path, w < nodes.length) (hnodup : path.Nodup) (hfuel : nodes.length < fuel + path.length)
    (h : visit nodes fuel path order pos = .error fault) :
    ∃ a, fault = .circularDependency (idAt nodes a) ∧ TransGen (Needs nodes) a a := by
  induction fuel generalizing path order pos with
  | zero =>
    have hle : path.length ≤ (List.range nodes.length).length :=
      (List.subperm_of_subset hnodup fun w hw => List.mem_range.mpr (hin w hw)).length_le
    rw [List.length_range] at hle
    omega
  | succ fuel ih =>
    rw [visit] at h
    split at h
    · cases h
    · split at h
      · rename_i hback
        cases h
        exact ⟨pos, rfl, hwait pos (List.contains_iff_mem.mp hback)⟩
      · rename_i hback
        obtain h | ⟨mid, -, h⟩ := of_bind_error h
        · obtain ⟨p, hp, order, hv⟩ := foldlM_error h
          have hneeds : Needs nodes pos p := hp
          refine ih (enabled_lt (enabled_of_mem_needs hp)) (List.forall_mem_cons.mpr ⟨.single hneeds, fun w hw => ?_⟩)
            (List.forall_mem_cons.mpr ⟨hpos, hin⟩) (List.nodup_cons.mpr ⟨fun hm => ?_, hnodup⟩) ?_ hv
          · exact (hwait w hw).tail hneeds
          · exact hback (List.contains_iff_mem.mpr hm)
          · rw [List.length_cons]
            omega
        · cases h

theorem circle_of_resolve (h : resolve nodes = .error fault) :
    ∃ a, fault = .circularDependency (idAt nodes a) ∧ TransGen (Needs nodes) a a := by
  obtain ⟨p, hp, order, hv⟩ := foldlM_error h
  exact circle_of_visit _ (enabled_lt (mem_roots.mp hp)) (by simp) (by simp) List.nodup_nil (by simp) hv

/-- Nodes that have been ordered do not need each other in a circle. -/
theorem resolve_of_circle {a : Nat} (h : TransGen (Needs nodes) a a) : ∃ fault, resolve nodes = .error fault := by
  cases hr : resolve nodes with
  | error fault => exact ⟨fault, rfl⟩
  | ok order =>
    have hdown {a b : Nat} (h : TransGen (Needs nodes) a b) : order.idxOf b < order.idxOf a := by
      induction h with
      | single h => exact ranks_of_resolve hr _ _ h
      | tail _ h ih => exact Nat.lt_trans (ranks_of_resolve hr _ _ h) ih
    exact absurd (hdown h) (Nat.lt_irrefl _)

theorem leads_of_needs (hids : (nodes.map (·.id)).Nodup) {a b : Nat} (ha : EnabledConfig nodes a)
    (h : TransGen (Needs nodes) a b) : EnabledConfig nodes b ∧ TransGen (Leads nodes) a b := by
  induction h with
  | single h =>
    obtain ⟨hb, hn⟩ := (mem_needs_iff hids).mp h
    exact ⟨hb, .single ⟨ha, hb, hn⟩⟩
  | tail _ h ih =>
    obtain ⟨hc, hn⟩ := (mem_needs_iff hids).mp h
    exact ⟨hc, ih.2.tail ⟨ih.1, hc, hn⟩⟩

/-- What lies on a circle of needs is needed, hence an enabled config node. -/
theorem circle_leads (hids : (nodes.map (·.id)).Nodup) {a : Nat} (h : TransGen (Needs nodes) a a) :
    TransGen (Leads nodes) a a := by
  obtain ⟨b, -, hb⟩ := TransGen.tail'_iff.mp h
  exact (leads_of_needs hids (enabledConfig_of_mem_needs hb) h).2

/-- Nodes with distinct ids cannot be ordered exactly if there is a circle of enabled config nodes, each naming the
next; and the fault names a node on such a circle. -/
theorem fault_iff_circle (hids : (nodes.map (·.id)).Nodup) :
    ((∃ fault, resolve nodes = .error fault) ↔ ∃ a, TransGen (Leads nodes) a a) ∧
    ∀ fault, resolve nodes = .error fault →
      ∃ a r, nodes[a]? = some r ∧ fault = .circularDependency r.id ∧ TransGen (Leads nodes) a a := by
  refine ⟨⟨fun ⟨fault, h⟩ => ?_, fun ⟨a, ha⟩ => ?_⟩, fun fault h => ?_⟩
  · obtain ⟨a, -, ha⟩ := circle_of_resolve h
    exact ⟨a, circle_leads hids ha⟩
  · have hle : Leads nodes ≤ Needs nodes := fun _ _ h => (mem_needs_iff hids).mpr h.2
    exact resolve_of_circle (TransGen.mono hle a a ha)
  · obtain ⟨a, hfault, ha⟩ := circle_of_resolve h
    have hcircle := circle_leads hids ha
    obtain ⟨b, -, -, ⟨r, hr, -⟩, -⟩ := TransGen.tail'_iff.mp hcircle
    refine ⟨a, r, hr, ?_, hcircle⟩
    rw [hfault, idAt, hr]
    rfl

/-- Two brokers that name each other, beside one that names itself and one that is disabled. -/
def circularNodes : List Record :=
  [{ id := "user", type := "change", container := none, wires := some [], disabled := false,
     properties := [("rules", .arr [.obj [("to", .str "a")], .str "user"])] },
   { id := "self", type := "broker", container := none, wires := none, disabled := false,
     properties := [("key", .str "self"), ("user", .str "user"), ("old", .str "old")] },
   { id := "old", type := "broker", container := none, wires := none, disabled := true, properties := [("to", .str "self")] },
   { id := "a", type := "broker", container := none, wires := none, disabled := false,
     properties := [("tls", .arr [.obj [("key", .str "b")]])] },
   { id := "b", type := "tls", container := none, wires := none, disabled := false, properties := [("of", .str "a")] }]

theorem circularNodes_refused : (circularNodes.map (·.id)).Nodup ∧
    resolve circularNodes = .error (.circularDependency "a") ∧ ∃ a, TransGen (Leads circularNodes) a a := by
  have hids : (circularNodes.map (·.id)).Nodup := by decide
  have hfault : resolve circularNodes = .error (.circularDependency "a") := by decide +kernel
  exact ⟨hids, hfault, (fault_iff_circle hids).1.mp ⟨_, hfault⟩⟩

end Flowgraph.StartOrder
