import Mathlib.Data.String.Basic
import Flowgraph.Dict
/-! Tables keep their keys in increasing order, so a key occurs at most once. -/
namespace Flowgraph

/-- What is found by a key that occurs once. -/
theorem find?_of_nodup {α : Type} {f : α → String} {xs : List α} (h : (xs.map f).Nodup) {x : α}
    (hx : x ∈ xs) : xs.find? (f · == f x) = some x := by
  induction xs with
  | nil => simp at hx
  | cons y ys ih =>
    obtain ⟨hy, hys⟩ := List.nodup_cons.mp h
    rcases List.mem_cons.mp hx with rfl | hx
    · simp
    · have hne : f y ≠ f x := fun he => hy (he ▸ List.mem_map_of_mem hx)
      rw [List.find?_cons_of_neg (by simpa using hne)]
      exact ih hys hx

theorem nodup_eraseDups {α : Type} [BEq α] [LawfulBEq α] : (xs : List α) → xs.eraseDups.Nodup
  | [] => List.nodup_nil
  | x :: xs => by
    rw [List.eraseDups_cons]
    refine List.nodup_cons.mpr ⟨fun h => ?_, nodup_eraseDups _⟩
    simpa using List.mem_eraseDups.mp h
termination_by xs => xs.length
decreasing_by exact Nat.lt_succ_of_le (List.length_filter_le _ _)

namespace Dict

variable {α β : Type}

/-- The keys are in increasing order. -/
def Sorted (d : Dict α) : Prop := d.keys.Pairwise (· < ·)

theorem sorted_nil : Sorted ([] : Dict α) := List.Pairwise.nil

theorem Sorted.nodup {d : Dict α} (h : d.Sorted) : (d.map (·.1)).Nodup :=
  List.Pairwise.imp (fun h => ne_of_lt h) h

theorem Sorted.filter {d : Dict α} (h : d.Sorted) (p : String × α → Bool) :
    Sorted (d.filter p) :=
  List.Pairwise.sublist (List.filter_sublist.map _) h

theorem Sorted.erase {d : Dict α} (h : d.Sorted) (key : String) : Sorted (d.erase key) := h.filter _

theorem mem_keys_insert {d : Dict α} {key k : String} {value : α} (h : k ∈ (d.insert key value).keys) :
    k = key ∨ k ∈ d.keys := by
  induction d with
  | nil => exact .inl (List.mem_singleton.mp h)
  | cons entry rest ih =>
    obtain ⟨k', v⟩ := entry
    unfold insert at h
    split at h
    · exact List.mem_cons.mp h
    · split at h
      · rcases List.mem_cons.mp h with h | h
        · exact .inl h
        · exact .inr (List.mem_cons_of_mem _ h)
      · rcases List.mem_cons.mp h with h | h
        · exact .inr (h ▸ List.mem_cons_self)
        · exact (ih h).imp_right (List.mem_cons_of_mem _)

theorem Sorted.insert {d : Dict α} (h : d.Sorted) (key : String) (value : α) :
    Sorted (d.insert key value) := by
  induction d with
  | nil => exact List.pairwise_singleton _ _
  | cons entry rest ih =>
    obtain ⟨k, v⟩ := entry
    obtain ⟨hk, hr⟩ := List.pairwise_cons.mp h
    unfold Dict.insert
    split
    · rename_i hlt
      refine List.pairwise_cons.mpr ⟨fun k' hk' => ?_, h⟩
      rcases List.mem_cons.mp hk' with rfl | hk'
      · exact hlt
      · exact hlt.trans (hk k' hk')
    · split
      · rename_i heq
        exact List.pairwise_cons.mpr ⟨fun k' hk' => heq ▸ hk k' hk', hr⟩
      · rename_i hlt hne
        refine List.pairwise_cons.mpr ⟨fun k' hk' => ?_, ih hr⟩
        rcases mem_keys_insert hk' with rfl | hk'
        · exact lt_of_le_of_ne (not_lt.mp hlt) (Ne.symm hne)
        · exact hk k' hk'

theorem sorted_ofList (entries : List (String × α)) : Sorted (ofList entries) := by
  have h (entries : List (String × α)) (d : Dict α) (hd : d.Sorted) :
      Sorted (entries.foldl (fun d entry => Dict.insert d entry.1 entry.2) d) := by
    induction entries generalizing d with
    | nil => exact hd
    | cons entry rest ih => exact ih _ (hd.insert _ _)
  exact h entries [] sorted_nil

/-! ## Entries and lookups -/

theorem mem_of_get? {d : Dict α} {key : String} {value : α} (h : d.get? key = some value) :
    (key, value) ∈ d := by
  obtain ⟨entry, hf, rfl⟩ := Option.map_eq_some_iff.mp h
  have hk := List.find?_some hf
  obtain rfl : entry.1 = key := by simpa using hk
  exact List.mem_of_find?_eq_some hf

theorem get?_of_mem {d : Dict α} (hd : d.Sorted) {key : String} {value : α} (h : (key, value) ∈ d) :
    d.get? key = some value := by
  unfold get?
  rw [find?_of_nodup (f := (·.1)) hd.nodup h]
  rfl

theorem mem_values {d : Dict α} {key : String} {value : α} (h : d.get? key = some value) :
    value ∈ d.values := List.mem_map_of_mem (mem_of_get? h)

theorem exists_key_of_mem_values {d : Dict α} (hd : d.Sorted) {value : α} (h : value ∈ d.values) :
    ∃ key, d.get? key = some value := by
  obtain ⟨⟨key, v⟩, hm, rfl⟩ := List.mem_map.mp h
  exact ⟨key, get?_of_mem hd hm⟩

theorem get?_filter {d : Dict α} (hd : d.Sorted) (p : String × α → Bool) (key : String) :
    get? (d.filter p) key = (d.get? key).filter fun v => p (key, v) := by
  cases hg : d.get? key with
  | none =>
    cases hf : get? (d.filter p) key with
    | none => rfl
    | some v =>
      have hm := List.mem_of_mem_filter (mem_of_get? hf)
      rw [get?_of_mem hd hm] at hg
      cases hg
  | some v =>
    have hm := mem_of_get? hg
    cases hp : p (key, v) with
    | true =>
      rw [get?_of_mem (hd.filter p) (List.mem_filter.mpr ⟨hm, hp⟩)]
      exact (Option.filter_some_pos (p := fun v => p (key, v)) hp).symm
    | false =>
      cases hf : get? (d.filter p) key with
      | none => exact (Option.filter_some_neg (p := fun v => p (key, v)) hp).symm
      | some v' =>
        obtain ⟨hm', hp'⟩ := List.mem_filter.mp (mem_of_get? hf)
        rw [get?_of_mem hd hm'] at hg
        cases hg
        rw [hp] at hp'
        cases hp'

/-- The table of entries whose keys are different. -/
theorem get?_ofList {entries : List (String × α)} (h : (entries.map (·.1)).Nodup) (key : String) :
    (ofList entries).get? key = (entries.find? (·.1 == key)).map (·.2) := by
  have hfold (entries : List (String × α)) (h : (entries.map (·.1)).Nodup) (d : Dict α) :
      get? (entries.foldl (fun d entry => Dict.insert d entry.1 entry.2) d) key =
        ((entries.find? (·.1 == key)).map (·.2)).or (d.get? key) := by
    induction entries generalizing d with
    | nil => rfl
    | cons entry rest ih =>
      obtain ⟨hn, hr⟩ := List.nodup_cons.mp h
      rw [List.foldl_cons, ih hr, get?_insert]
      by_cases hk : entry.1 = key
      · have hnone : rest.find? (·.1 == key) = none := by
          rw [List.find?_eq_none]
          intro e he heq
          exact hn (List.mem_map.mpr ⟨e, he, (beq_iff_eq.mp heq).trans hk.symm⟩)
        simp [hk, hnone]
      · simp [hk]
  rw [ofList, hfold entries h]
  simp

end Dict
end Flowgraph
