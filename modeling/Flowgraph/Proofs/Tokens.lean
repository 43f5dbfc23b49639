import Mathlib.Data.List.Basic
import Flowgraph.Config.References
import Flowgraph.Config.Scope
/-! Tokens are replaced exactly. A text inside a value is replaced if it is a token for a known name and nothing else,
by what the name stands for; the value around it keeps its shape, and all other leaves are as before. -/
namespace Flowgraph

/-! ## Tokens -/

namespace Scope

variable {lookup : Lookup} {s name : String} {x v v' : Json}

/-- What can stand between the parentheses of a token. -/
def IsName (name : String) : Prop := name ≠ "" ∧ ∀ c ∈ name.toList, Text.isBlank c = false

/-- The token for a name. -/
def token (name : String) : String := "$(" ++ name ++ ")"

/-- A text that is a token for a name the lookup knows. -/
def Known (lookup : Lookup) (s : String) : Prop := ∃ name, s = token name ∧ IsName name ∧ (lookup name).isSome = true

theorem toList_token (name : String) : (token name).toList = '$' :: '(' :: (name.toList ++ [')']) := by
  simp [token, String.toList_append]

theorem token_injective {name' : String} (h : token name = token name') : name = name' := by
  have hlist := congrArg String.toList h
  rw [toList_token, toList_token] at hlist
  exact String.toList_inj.mp (by simpa using hlist)

/-- The name is all that stands between the first parenthesis and the last one. -/
theorem tokenName?_eq_some_iff : tokenName? s = some name ↔ s = token name ∧ IsName name := by
  constructor
  · intro h
    unfold tokenName? at h
    split at h
    · rename_i rest hs
      dsimp only at h
      split at h
      · rename_i hc
        obtain rfl := Option.some.inj h
        simp only [Bool.and_eq_true, beq_iff_eq, Bool.not_eq_eq_eq_not, Bool.not_true, List.isEmpty_eq_false_iff,
          List.any_eq_false, Bool.not_eq_true] at hc
        obtain ⟨⟨hlast, hne⟩, hblank⟩ := hc
        refine ⟨String.toList_inj.mp ?_, fun he => hne ?_, by simpa using hblank⟩
        · rw [toList_token, hs, String.toList_ofList, List.dropLast_append_getLast? _ hlast]
        · simpa using congrArg String.toList he
      · cases h
    · cases h
  · rintro ⟨rfl, hne, hblank⟩
    have hname : name.toList.isEmpty = false := by
      rw [List.isEmpty_eq_false_iff]
      exact fun he => hne (String.toList_inj.mp he)
    have hany : name.toList.any Text.isBlank = false := by
      rw [List.any_eq_false]
      exact fun c hc => by simp [hblank c hc]
    unfold tokenName?
    rw [toList_token]
    simp [hname, hany]

theorem resolveText_token (hname : IsName name) (hx : lookup name = some x) : resolveText lookup (token name) = x := by
  rw [resolveText, tokenName?_eq_some_iff.mpr ⟨rfl, hname⟩, Option.bind_some, hx, Option.getD_some]

theorem resolveText_other (h : ¬Known lookup s) : resolveText lookup s = .str s := by
  unfold resolveText
  cases ht : tokenName? s with
  | none => rfl
  | some name =>
    obtain ⟨hs, hname⟩ := tokenName?_eq_some_iff.mp ht
    cases hx : lookup name with
    | none => rw [Option.bind_some, hx, Option.getD_none]
    | some x => exact absurd ⟨name, hs, hname, by rw [hx]; rfl⟩ h

end Scope

/-! ## Places inside a value -/

namespace Json

/-- The values directly inside a value: the items of an array, or the values of the fields of an object. -/
def parts : Json → List Json
  | .arr xs => xs
  | .obj fields => fields.map (·.2)
  | _ => []

/-- What stands at a place, told by the position to take at each level. -/
def at? : Json → List Nat → Option Json
  | v, [] => some v
  | v, i :: path => v.parts[i]?.bind fun part => part.at? path

@[simp] theorem at?_nil (v : Json) : v.at? [] = some v := rfl

@[simp] theorem at?_cons (v : Json) (i : Nat) (path : List Nat) :
    v.at? (i :: path) = v.parts[i]?.bind fun part => part.at? path := rfl

/-- Neither an array nor an object. -/
def IsLeaf : Json → Prop
  | .arr _ | .obj _ => False
  | _ => True

end Json

/-! ## What replacing does to a value -/

namespace Scope

variable {lookup : Lookup} {s name : String} {v v' x : Json}

/-- One value is another with tokens replaced: each leaf that is a token for a known name has become what the name
stands for, as it is, and all else is as before. -/
structure Replaces (lookup : Lookup) (v v' : Json) : Prop where
  token : ∀ path name x, v.at? path = some (.str (token name)) → IsName name → lookup name = some x →
    v'.at? path = some x
  leaf : ∀ path w, v.at? path = some w → w.IsLeaf → (∀ s, w = .str s → ¬Known lookup s) → v'.at? path = some w
  arr : ∀ path xs, v.at? path = some (.arr xs) → ∃ ys, v'.at? path = some (.arr ys) ∧ ys.length = xs.length
  obj : ∀ path fields, v.at? path = some (.obj fields) →
    ∃ fields', v'.at? path = some (.obj fields') ∧ fields'.map (·.1) = fields.map (·.1)

theorem resolveItems_eq_map (lookup : Lookup) (xs : List Json) : resolveItems lookup xs = xs.map (resolve lookup) := by
  induction xs with
  | nil => rfl
  | cons x xs ih => rw [resolveItems, ih, List.map_cons]

theorem resolveFields_eq_map (lookup : Lookup) (fields : List (String × Json)) :
    resolveFields lookup fields = fields.map fun field => (field.1, resolve lookup field.2) := by
  induction fields with
  | nil => rfl
  | cons field fields ih =>
    obtain ⟨key, x⟩ := field
    rw [resolveFields, ih, List.map_cons]

theorem resolve_arr (lookup : Lookup) (xs : List Json) : resolve lookup (.arr xs) = .arr (xs.map (resolve lookup)) := by
  rw [resolve, resolveItems_eq_map]

theorem resolve_obj (lookup : Lookup) (fields : List (String × Json)) :
    resolve lookup (.obj fields) = .obj (fields.map fun field => (field.1, resolve lookup field.2)) := by
  rw [resolve, resolveFields_eq_map]

/-- What is inside a value is replaced part by part. -/
theorem parts_resolve {i : Nat} {part : Json} (h : v.parts[i]? = some part) :
    (resolve lookup v).parts[i]? = some (resolve lookup part) := by
  cases v with
  | arr xs =>
    have hi : xs[i]? = some part := h
    rw [resolve_arr]
    simp [Json.parts, hi]
  | obj fields =>
    have hi : (fields.map (·.2))[i]? = some part := h
    rw [List.getElem?_map] at hi
    obtain ⟨field, hfield, rfl⟩ := Option.map_eq_some_iff.mp hi
    rw [resolve_obj]
    simp [Json.parts, hfield]
  | _ => cases h

/-- So what stands at a place is replaced as a value of its own. -/
theorem at?_resolve {path : List Nat} {w : Json} (h : v.at? path = some w) :
    (resolve lookup v).at? path = some (resolve lookup w) := by
  induction path generalizing v with
  | nil =>
    obtain rfl := Option.some.inj h
    rfl
  | cons i path ih =>
    rw [Json.at?_cons] at h ⊢
    obtain ⟨part, hpart, hw⟩ := Option.bind_eq_some_iff.mp h
    rw [parts_resolve hpart, Option.bind_some, ih hw]

theorem resolve_leaf {w : Json} (hleaf : w.IsLeaf) (h : ∀ s, w = .str s → ¬Known lookup s) : resolve lookup w = w := by
  cases w with
  | str s => exact resolveText_other (h s rfl)
  | arr xs => exact hleaf.elim
  | obj fields => exact hleaf.elim
  | _ => rfl

theorem replaces_resolve (lookup : Lookup) (v : Json) : Replaces lookup v (resolve lookup v) where
  token path name x h hname hx := by
    rw [at?_resolve h, resolve, resolveText_token hname hx]
  leaf path w h hleaf hw := by
    rw [at?_resolve h, resolve_leaf hleaf hw]
  arr path xs h := ⟨xs.map (resolve lookup), by rw [at?_resolve h, resolve_arr], List.length_map _⟩
  obj path fields h := ⟨_, by rw [at?_resolve h, resolve_obj], by simp⟩

/-- Replacing in a value is replacing in each of its parts. -/
theorem Replaces.part (h : Replaces lookup v v') {i : Nat} {part part' : Json} (hp : v.parts[i]? = some part)
    (hp' : v'.parts[i]? = some part') : Replaces lookup part part' := by
  have hat (path : List Nat) : v.at? (i :: path) = part.at? path := by rw [Json.at?_cons, hp, Option.bind_some]
  have hat' (path : List Nat) : v'.at? (i :: path) = part'.at? path := by rw [Json.at?_cons, hp', Option.bind_some]
  refine ⟨fun path name x hw hname hx => ?_, fun path w hw hleaf hs => ?_, fun path xs hw => ?_,
    fun path fields hw => ?_⟩
  · exact hat' path ▸ h.token (i :: path) name x ((hat path).trans hw) hname hx
  · exact hat' path ▸ h.leaf (i :: path) w ((hat path).trans hw) hleaf hs
  · exact hat' path ▸ h.arr (i :: path) xs ((hat path).trans hw)
  · exact hat' path ▸ h.obj (i :: path) fields ((hat path).trans hw)

theorem Replaces.eq_of_leaf (h : Replaces lookup v v') (hleaf : v.IsLeaf) (hv : ∀ s, v = .str s → ¬Known lookup s) :
    v' = v := Option.some.inj (h.leaf [] v rfl hleaf hv)

theorem Replaces.eq_of_text (h : Replaces lookup (.str s) v') : v' = resolveText lookup s := by
  by_cases hs : Known lookup s
  · obtain ⟨name, rfl, hname, hx⟩ := hs
    obtain ⟨x, hx⟩ := Option.isSome_iff_exists.mp hx
    rw [resolveText_token hname hx]
    exact Option.some.inj (h.token [] name x rfl hname hx)
  · rw [resolveText_other hs]
    exact h.eq_of_leaf trivial fun s' hs' => Json.str.inj hs' ▸ hs

/-! What has been said of the places determines the value. -/

mutual
theorem Replaces.eq_resolve : (v : Json) → {v' : Json} → Replaces lookup v v' → v' = resolve lookup v
  | .null, _, h => h.eq_of_leaf trivial (by simp)
  | .bool _, _, h => h.eq_of_leaf trivial (by simp)
  | .num _, _, h => h.eq_of_leaf trivial (by simp)
  | .str _, _, h => h.eq_of_text
  | .arr xs, v', h => by
    obtain ⟨ys, hys, hlength⟩ := h.arr [] xs rfl
    obtain rfl := Option.some.inj hys
    exact congrArg Json.arr (items_eq_resolve xs hlength fun i x y hx hy => h.part hx hy)
  | .obj fields, v', h => by
    obtain ⟨fields', hf, hkeys⟩ := h.obj [] fields rfl
    obtain rfl := Option.some.inj hf
    refine congrArg Json.obj (fields_eq_resolve fields hkeys fun i f f' hx hy => h.part (i := i) ?_ ?_)
    · simp [Json.parts, hx]
    · simp [Json.parts, hy]

theorem items_eq_resolve : (xs : List Json) → {ys : List Json} → ys.length = xs.length →
    (∀ (i : Nat) (x y : Json), xs[i]? = some x → ys[i]? = some y → Replaces lookup x y) → ys = resolveItems lookup xs
  | [], ys, hlength, _ => List.length_eq_zero_iff.mp hlength
  | x :: xs, [], hlength, _ => by cases hlength
  | x :: xs, y :: ys, hlength, h => by
    rw [resolveItems, Replaces.eq_resolve x (h 0 x y rfl rfl),
      ← items_eq_resolve xs (Nat.succ.inj hlength) fun i x' y' hx hy => h (i + 1) x' y' hx hy]

theorem fields_eq_resolve : (fields : List (String × Json)) → {fields' : List (String × Json)} →
    fields'.map (·.1) = fields.map (·.1) →
    (∀ (i : Nat) (f f' : String × Json), fields[i]? = some f → fields'[i]? = some f' → Replaces lookup f.2 f'.2) →
    fields' = resolveFields lookup fields
  | [], fields', hkeys, _ => List.map_eq_nil_iff.mp hkeys
  | f :: fields, [], hkeys, _ => by cases hkeys
  | (key, x) :: fields, (key', y) :: fields', hkeys, h => by
    obtain ⟨hkey, hrest⟩ := List.cons.inj hkeys
    obtain rfl : key' = key := hkey
    have hy : y = resolve lookup x := Replaces.eq_resolve x (h 0 _ _ rfl rfl)
    rw [resolveFields, hy, ← fields_eq_resolve fields hrest fun i f f' hf hf' => h (i + 1) f f' hf hf']
end

/-- What has been said of the places is all there is to say. -/
theorem replaces_iff : Replaces lookup v v' ↔ v' = resolve lookup v :=
  ⟨Replaces.eq_resolve v, fun h => h ▸ replaces_resolve lookup v⟩

/-! ## Replacing twice -/

/-- No value that can take the place of a token has a known token in it. -/
def Settled (lookup : Lookup) : Prop :=
  ∀ name x, IsName name → lookup name = some x → ∀ s ∈ x.texts, ¬Known lookup s

mutual
theorem resolve_of_unknown : (v : Json) → (∀ s ∈ v.texts, ¬Known lookup s) → resolve lookup v = v
  | .null, _ | .bool _, _ | .num _, _ => rfl
  | .str s, h => resolveText_other (h s (List.mem_singleton.mpr rfl))
  | .arr xs, h => congrArg Json.arr (resolveItems_of_unknown xs h)
  | .obj fields, h => congrArg Json.obj (resolveFields_of_unknown fields h)

theorem resolveItems_of_unknown :
    (xs : List Json) → (∀ s ∈ Json.textsOfItems xs, ¬Known lookup s) → resolveItems lookup xs = xs
  | [], _ => rfl
  | x :: xs, h => by
    rw [resolveItems, resolve_of_unknown x fun s hs => h s (List.mem_append_left _ hs),
      resolveItems_of_unknown xs fun s hs => h s (List.mem_append_right _ hs)]

theorem resolveFields_of_unknown : (fields : List (String × Json)) →
    (∀ s ∈ Json.textsOfFields fields, ¬Known lookup s) → resolveFields lookup fields = fields
  | [], _ => rfl
  | (key, x) :: fields, h => by
    rw [resolveFields, resolve_of_unknown x fun s hs => h s (List.mem_append_left _ hs),
      resolveFields_of_unknown fields fun s hs => h s (List.mem_append_right _ hs)]
end

theorem unknown_resolveText (hl : Settled lookup) (s : String) :
    ∀ t ∈ (resolveText lookup s).texts, ¬Known lookup t := by
  intro t ht
  by_cases hs : Known lookup s
  · obtain ⟨name, rfl, hname, hx⟩ := hs
    obtain ⟨x, hx⟩ := Option.isSome_iff_exists.mp hx
    rw [resolveText_token hname hx] at ht
    exact hl name x hname hx t ht
  · rw [resolveText_other hs] at ht
    exact List.mem_singleton.mp ht ▸ hs

mutual
theorem unknown_resolve (hl : Settled lookup) : (v : Json) → ∀ s ∈ (resolve lookup v).texts, ¬Known lookup s
  | .null | .bool _ | .num _ => fun _ hs => absurd hs List.not_mem_nil
  | .str s => unknown_resolveText hl s
  | .arr xs => unknown_resolveItems hl xs
  | .obj fields => unknown_resolveFields hl fields

theorem unknown_resolveItems (hl : Settled lookup) :
    (xs : List Json) → ∀ s ∈ Json.textsOfItems (resolveItems lookup xs), ¬Known lookup s
  | [] => fun _ hs => absurd hs List.not_mem_nil
  | x :: xs => fun s hs => (List.mem_append.mp hs).elim (unknown_resolve hl x s) (unknown_resolveItems hl xs s)

theorem unknown_resolveFields (hl : Settled lookup) :
    (fields : List (String × Json)) → ∀ s ∈ Json.textsOfFields (resolveFields lookup fields), ¬Known lookup s
  | [] => fun _ hs => absurd hs List.not_mem_nil
  | (_, x) :: fields => fun s hs =>
    (List.mem_append.mp hs).elim (unknown_resolve hl x s) (unknown_resolveFields hl fields s)
end

theorem resolve_resolve (hl : Settled lookup) (v : Json) : resolve lookup (resolve lookup v) = resolve lookup v :=
  resolve_of_unknown _ (unknown_resolve hl v)

/-! ## Records -/

/-- A node's record with tokens replaced in all its properties but its environment definitions. -/
structure ReplacesIn (lookup : Lookup) (r r' : Record) : Prop where
  bare : { r' with properties := r.properties } = r
  keys : r'.properties.keys = r.properties.keys
  property : ∀ (i : Nat) (key : String) (v v' : Json), r.properties[i]? = some (key, v) →
    r'.properties[i]? = some (key, v') → if key = "env" then v' = v else Replaces lookup v v'

theorem getElem?_resolveRecord (lookup : Lookup) (r : Record) (i : Nat) : (resolveRecord lookup r).properties[i]? =
    (r.properties[i]?).map fun (k, v) => (k, if k = "env" then v else resolve lookup v) := List.getElem?_map

theorem replacesIn_resolveRecord (lookup : Lookup) (r : Record) : ReplacesIn lookup r (resolveRecord lookup r) where
  bare := rfl
  keys := by simp [resolveRecord, Dict.keys]
  property i key v v' h h' := by
    rw [getElem?_resolveRecord, h] at h'
    obtain ⟨-, rfl⟩ := Prod.mk.inj (Option.some.inj h')
    split
    · rfl
    · exact replaces_resolve lookup v

theorem resolveRecord_resolveRecord (hl : Settled lookup) (r : Record) :
    resolveRecord lookup (resolveRecord lookup r) = resolveRecord lookup r := by
  unfold resolveRecord
  dsimp only
  rw [List.map_map]
  congr 1
  refine List.map_congr_left fun field _ => ?_
  by_cases hk : field.1 = "env"
  · simp [hk]
  · simp [hk, resolve_resolve hl]

/-- Tokens are replaced exactly: a value comes of another by replacing precisely the leaves that are tokens for known
names, and in a record the same is done to every property but the environment definitions. Where no value that takes
the place of a token has a known token in it, replacing a second time changes nothing. -/
theorem tokens_replaced_exactly (lookup : Lookup) :
    (∀ v v', v' = resolve lookup v ↔ Replaces lookup v v') ∧
    (∀ r, ReplacesIn lookup r (resolveRecord lookup r)) ∧
    (Settled lookup → (∀ v, resolve lookup (resolve lookup v) = resolve lookup v) ∧
      ∀ r, resolveRecord lookup (resolveRecord lookup r) = resolveRecord lookup r) :=
  ⟨fun _ _ => replaces_iff.symm, replacesIn_resolveRecord lookup,
    fun hl => ⟨resolve_resolve hl, resolveRecord_resolveRecord hl⟩⟩

/-- Two variables. The value of one of them has a token in it, for a name that is not known. -/
def twoVariables : Lookup := fun name =>
  if name = "HOST" then some (.arr [.str "$(NONE)", .nat 1]) else if name = "a(b)$" then some (.str "c") else none

def tokenValue : Json :=
  .obj [("a", .arr [.str "$(a(b)$)", .str "$(HOST) ", .obj [("b", .str "$(HOST)")]]), ("env", .null)]

theorem settled_twoVariables : Settled twoVariables := by
  have hnone : ¬Known twoVariables "$(NONE)" := by
    rintro ⟨name, htoken, -, hx⟩
    obtain rfl : "NONE" = name := token_injective htoken
    revert hx
    decide
  have hc : ¬Known twoVariables "c" := by
    rintro ⟨name, htoken, -⟩
    have hlist := congrArg String.toList htoken
    rw [toList_token] at hlist
    exact absurd (List.cons.inj hlist).1 (by decide)
  intro name x _ hx s hs
  unfold twoVariables at hx
  split at hx
  · obtain rfl := Option.some.inj hx
    obtain rfl : s = "$(NONE)" := List.mem_singleton.mp hs
    exact hnone
  · split at hx
    · obtain rfl := Option.some.inj hx
      obtain rfl : s = "c" := List.mem_singleton.mp hs
      exact hc
    · cases hx

/-- Tokens are found at any depth, whatever their names hold besides white space, and are replaced once. -/
theorem two_variables_replaced : Settled twoVariables ∧
    resolve twoVariables tokenValue = .obj [("a", .arr [.str "c", .str "$(HOST) ",
      .obj [("b", .arr [.str "$(NONE)", .nat 1])]]), ("env", .null)] ∧
    resolve twoVariables (resolve twoVariables tokenValue) = resolve twoVariables tokenValue :=
  ⟨settled_twoVariables, by decide +kernel,
    ((tokens_replaced_exactly twoVariables).2.2 settled_twoVariables).1 tokenValue⟩

end Scope

end Flowgraph
