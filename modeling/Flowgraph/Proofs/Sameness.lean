import Flowgraph.Config.Diff
import Flowgraph.Config.Scope
/-! Values that count as the same: the two zeros are one number. Sameness is an equivalence, and what is the same
stays so when tokens inside it are replaced. -/
namespace Flowgraph

/-- The number with its sign, unless it is zero. -/
def Binary.settled (x : Binary) : Binary := if x.isZero then .zero false else x

theorem Binary.same_iff {x y : Binary} : x.same y = true ↔ x.settled = y.settled := by
  have hz {z : Binary} (h : ¬z.isZero = true) : Binary.zero false ≠ z := by
    rintro rfl
    exact h rfl
  simp only [same, settled, Bool.or_eq_true, Bool.and_eq_true, beq_iff_eq]
  by_cases hx : x.isZero = true
  · by_cases hy : y.isZero = true
    · simp [hx, hy]
    · have hne : x ≠ y := by
        rintro rfl
        exact hy hx
      simp [hx, hy, hz hy, hne]
  · by_cases hy : y.isZero = true
    · have hne : x ≠ y := by
        rintro rfl
        exact hx hy
      simp [hx, hy, (hz hx).symm, hne]
    · simp [hx, hy]

def Number.settled : Number → Number
  | .int i => .int i
  | .float x => .float x.settled

theorem Number.same_iff {m n : Number} : m.same n = true ↔ m.settled = n.settled := by
  cases m <;> cases n <;> simp [same, settled, Binary.same_iff]

namespace Json

/-! ## An equivalence -/

mutual
/-- The value with zeros that have no sign. -/
def settled : Json → Json
  | .num n => .num n.settled
  | .arr xs => .arr (settledItems xs)
  | .obj xs => .obj (settledFields xs)
  | v => v
termination_by structural a => a

def settledItems : List Json → List Json
  | [] => []
  | x :: xs => settled x :: settledItems xs
termination_by structural xs => xs

def settledFields : List (String × Json) → List (String × Json)
  | [] => []
  | (k, x) :: xs => (k, settled x) :: settledFields xs
termination_by structural xs => xs
end

mutual
theorem same_iff : (a b : Json) → (same a b = true ↔ settled a = settled b)
  | .null, b => by cases b <;> simp [same, settled]
  | .bool x, b => by cases b <;> simp [same, settled]
  | .num m, b => by cases b <;> simp [same, settled, Number.same_iff]
  | .str s, b => by cases b <;> simp [same, settled]
  | .arr xs, b => by
    cases b with
    | arr ys => simpa [same, settled] using sameItems_iff xs ys
    | _ => simp [same, settled]
  | .obj xs, b => by
    cases b with
    | obj ys => simpa [same, settled] using sameFields_iff xs ys
    | _ => simp [same, settled]

theorem sameItems_iff : (xs ys : List Json) → (sameItems xs ys = true ↔ settledItems xs = settledItems ys)
  | [], ys => by cases ys <;> simp [sameItems, settledItems]
  | x :: xs, ys => by
    cases ys with
    | nil => simp [sameItems, settledItems]
    | cons y ys => simp [sameItems, settledItems, same_iff x y, sameItems_iff xs ys]

theorem sameFields_iff :
    (xs ys : List (String × Json)) → (sameFields xs ys = true ↔ settledFields xs = settledFields ys)
  | [], ys => by cases ys <;> simp [sameFields, settledFields]
  | (i, x) :: xs, ys => by
    cases ys with
    | nil => simp [sameFields, settledFields]
    | cons y ys => simp [sameFields, settledFields, same_iff x y.2, sameFields_iff xs ys, and_assoc]
end

theorem sameFields_refl (xs : List (String × Json)) : sameFields xs xs = true := (sameFields_iff xs xs).mpr rfl

theorem sameFields_symm {xs ys : List (String × Json)} (h : sameFields xs ys = true) : sameFields ys xs = true :=
  (sameFields_iff ys xs).mpr ((sameFields_iff xs ys).mp h).symm

theorem sameFields_trans {xs ys zs : List (String × Json)} (h : sameFields xs ys = true)
    (h' : sameFields ys zs = true) : sameFields xs zs = true :=
  (sameFields_iff xs zs).mpr (((sameFields_iff xs ys).mp h).trans ((sameFields_iff ys zs).mp h'))

end Json

/-! ## Tokens -/

namespace Scope
open Json

variable (lookup : Lookup)

mutual
theorem same_resolve : (a b : Json) → same a b = true → same (resolve lookup a) (resolve lookup b) = true
  | .str s, b, h => by
    cases b with
    | str t =>
      obtain rfl := beq_iff_eq.mp h
      exact (same_iff _ _).mpr rfl
    | _ => cases h
  | .arr xs, b, h => by
    cases b with
    | arr ys => exact sameItems_resolve xs ys h
    | _ => cases h
  | .obj xs, b, h => by
    cases b with
    | obj ys => exact sameFields_resolve xs ys h
    | _ => cases h
  | .null, b, h => by
    cases b with
    | null => exact h
    | _ => cases h
  | .bool x, b, h => by
    cases b with
    | bool y => exact h
    | _ => cases h
  | .num m, b, h => by
    cases b with
    | num n => exact h
    | _ => cases h

theorem sameItems_resolve : (xs ys : List Json) → sameItems xs ys = true →
    sameItems (resolveItems lookup xs) (resolveItems lookup ys) = true
  | [], ys, h => by
    cases ys with
    | nil => rfl
    | cons y ys => cases h
  | x :: xs, ys, h => by
    cases ys with
    | nil => cases h
    | cons y ys =>
      obtain ⟨hx, hxs⟩ := Bool.and_eq_true_iff.mp h
      exact Bool.and_eq_true_iff.mpr ⟨same_resolve x y hx, sameItems_resolve xs ys hxs⟩

theorem sameFields_resolve : (xs ys : List (String × Json)) → sameFields xs ys = true →
    sameFields (resolveFields lookup xs) (resolveFields lookup ys) = true
  | [], ys, h => by
    cases ys with
    | nil => rfl
    | cons y ys => cases h
  | (i, x) :: xs, ys, h => by
    cases ys with
    | nil => cases h
    | cons y ys =>
      obtain ⟨j, y⟩ := y
      simp only [sameFields, resolveFields, Bool.and_eq_true, beq_iff_eq] at *
      exact ⟨⟨h.1.1, same_resolve x y h.1.2⟩, sameFields_resolve xs ys h.2⟩
end

/-- Where a node stands does not matter to what its tokens become. -/
theorem material_resolveRecord (r : Record) : Diff.material (resolveRecord lookup r) =
    (Diff.material r).map fun (k, v) => (k, if k = "env" then v else resolve lookup v) := by
  simp only [Diff.material, resolveRecord, List.filter_map]
  rfl

/-- Nodes of the same properties have the same properties when their tokens are replaced. -/
theorem sameFields_resolveRecord {r r' : Record} (h : sameFields (Diff.material r) (Diff.material r') = true) :
    sameFields (Diff.material (resolveRecord lookup r)) (Diff.material (resolveRecord lookup r')) = true := by
  rw [material_resolveRecord, material_resolveRecord]
  generalize hxs : Diff.material r = xs at h
  generalize hys : Diff.material r' = ys at h
  clear hxs hys
  induction xs generalizing ys with
  | nil =>
    cases ys with
    | nil => rfl
    | cons y ys => cases h
  | cons x xs ih =>
    cases ys with
    | nil => cases h
    | cons y ys =>
      obtain ⟨i, x⟩ := x
      obtain ⟨j, y⟩ := y
      simp only [sameFields, List.map_cons, Bool.and_eq_true, beq_iff_eq] at *
      obtain ⟨⟨rfl, hx⟩, hxs⟩ := h
      refine ⟨⟨rfl, ?_⟩, ih ys hxs⟩
      split
      · exact hx
      · exact same_resolve lookup x y hx

end Scope
end Flowgraph
