import Mathlib.Data.List.Nodup
import Flowgraph.Level.Expansion
import Flowgraph.Proofs.Tables
/-! Private ids are never the same for two numbers, so the nodes of an instance have ids of their own. -/
namespace Flowgraph

/-! ## Reading a private id -/

/-- The value of a hexadecimal digit. -/
def hexValue (c : Char) : Nat := if c.isDigit then c.toNat - 48 else c.toNat - 87

/-- The number that hexadecimal digits stand for. -/
def hexNumber (cs : List Char) : Nat := cs.foldl (fun n c => 16 * n + hexValue c) 0

/-- The number behind a private id. -/
def privateNumber (id : NodeId) : Nat := hexNumber (id.toList.drop 20)

theorem hexValue_digitChar {d : Nat} (h : d < 16) : hexValue d.digitChar = d := by
  have hall : ∀ d < 16, hexValue (Nat.digitChar d) = d := by decide
  exact hall d h

theorem hexNumber_append (cs : List Char) (c : Char) :
    hexNumber (cs ++ [c]) = 16 * hexNumber cs + hexValue c := by
  simp [hexNumber, List.foldl_append]

theorem hexNumber_toDigits (n : Nat) : hexNumber (Nat.toDigits 16 n) = n := by
  induction n using Nat.strongRecOn with
  | _ n ih =>
    rw [Nat.toDigits_eq_if (by decide)]
    split
    · rename_i h
      simpa [hexNumber] using hexValue_digitChar h
    · rename_i h
      rw [hexNumber_append, ih (n / 16) (by omega), hexValue_digitChar (Nat.mod_lt _ (by decide))]
      omega

/-- Zeros in front change nothing. -/
theorem hexNumber_zeros (k : Nat) (cs : List Char) :
    hexNumber (List.replicate k '0' ++ cs) = hexNumber cs := by
  induction k with
  | zero => rfl
  | succ k ih => exact ih

theorem privateNumber_privateId (n : Nat) : privateNumber (privateId n) = n := by
  have hdigits : (privateId n).toList = "5e55a9e0f10a49e0b0a7".toList ++
      (List.replicate (12 - (Nat.toDigits 16 n).length) '0' ++ Nat.toDigits 16 n) :=
    String.toList_append.trans (congrArg _ String.toList_ofList)
  rw [privateNumber, hdigits, List.drop_left' (by decide), hexNumber_zeros, hexNumber_toDigits]

theorem privateId_injective {n m : Nat} (h : privateId n = privateId m) : n = m := by
  rw [← privateNumber_privateId n, h, privateNumber_privateId]

theorem twenty_le_length_privateId (n : Nat) : 20 ≤ (privateId n).toList.length := by
  unfold privateId
  dsimp only
  rw [String.toList_append, List.length_append]
  exact Nat.le_add_right _ _

/-! ## The private ids of one instance -/

namespace Binding

variable {b : Binding} {t : Template} {usage : Record} {next : Nat}

/-- The nodes of an instance before their outputs are joined to what lies outside. -/
def members (b : Binding) : List Record :=
  b.template.nodes.map b.copy ++
    ((b.statusSink.toList.map fun id => b.internal id statusSinkType []) ++
    ((b.completeSink.toList.map fun id => b.internal id completeSinkType []) ++
    [b.internal b.input inputType []]))

theorem privateOf?_make (ht : (t.nodes.map (·.id)).Nodup) {i : Nat} {r : Record}
    (hr : t.nodes[i]? = some r) :
    (Binding.make t usage next).privateOf? r.id = some (privateId (next + i)) := by
  have hmem : (r.id, privateId (next + i)) ∈ (Binding.make t usage next).names := by
    refine List.mem_map.mpr ⟨(r, i), ?_, rfl⟩
    rw [List.mem_zipIdx_iff_getElem?]
    exact hr
  have hkeys : (Binding.make t usage next).names.map (·.1) = t.nodes.map (·.id) := by
    simp only [make, List.map_map]
    refine List.ext_getElem? fun j => ?_
    simp [List.getElem?_map, List.getElem?_zipIdx, Function.comp_def]
  unfold privateOf?
  rw [find?_of_nodup (f := (·.1)) (hkeys ▸ ht) hmem]
  rfl

/-- The places of the private ids of an instance among those it takes. -/
def places (t : Template) : List Nat :=
  List.range t.nodes.length ++ ((t.status.toList.map fun _ => t.nodes.length + 1) ++
    ((t.complete.toList.map fun _ => t.nodes.length + 1 + t.status.toList.length) ++ [t.nodes.length]))

theorem places_nodup (t : Template) : (places t).Nodup := by
  unfold places
  rw [List.nodup_append]
  refine ⟨List.nodup_range, ?_, fun i hi j hj => ?_⟩
  · cases t.status <;> cases t.complete <;> simp
    omega
  · rw [List.mem_range] at hi
    have : t.nodes.length ≤ j := by
      simp only [List.mem_append, List.mem_map, List.mem_singleton] at hj
      rcases hj with ⟨_, _, rfl⟩ | ⟨_, _, rfl⟩ | rfl <;> omega
    omega

theorem members_make (ht : (t.nodes.map (·.id)).Nodup) :
    (Binding.make t usage next).members.map (·.id) = (places t).map fun i => privateId (next + i) := by
  have hcopies : (t.nodes.map (Binding.make t usage next).copy).map (·.id) =
      (List.range t.nodes.length).map fun i => privateId (next + i) := by
    refine List.ext_getElem? fun i => ?_
    rw [List.getElem?_map, List.getElem?_map, List.getElem?_map]
    cases hr : t.nodes[i]? with
    | none => simp [List.getElem?_eq_none_iff.mp hr]
    | some r =>
      have hi := (List.getElem?_eq_some_iff.mp hr).1
      simp [hi, copy, rename, privateOf?_make ht hr]
  unfold members places
  rw [List.map_append, List.map_append, List.map_append, List.map_append, List.map_append, List.map_append]
  have ht' : (Binding.make t usage next).template = t := rfl
  rw [ht', hcopies]
  congr 1
  cases hs : t.status <;> cases hc : t.complete <;>
    simp [make, internal, hs, hc, Nat.add_assoc]

/-- The nodes of an instance have different ids. -/
theorem members_nodup (ht : (t.nodes.map (·.id)).Nodup) :
    ((Binding.make t usage next).members.map (·.id)).Nodup := by
  rw [members_make ht]
  refine (places_nodup t).map_on fun i _ j _ h => ?_
  have := privateId_injective h
  omega

end Binding
end Flowgraph
