/-! Finite tables with text keys, listed in increasing order of the key. -/
namespace Flowgraph

/-- A table from text to `α`. Operations keep the keys strictly increasing, in the order of the
characters' code points, which is also the order of their UTF-8 bytes. -/
abbrev Dict (α : Type) := List (String × α)

namespace Dict
variable {α β : Type}

def get? (d : Dict α) (key : String) : Option α :=
  (d.find? (·.1 == key)).map (·.2)

def contains (d : Dict α) (key : String) : Bool :=
  d.any (·.1 == key)

def keys (d : Dict α) : List String :=
  d.map (·.1)

def values (d : Dict α) : List α :=
  d.map (·.2)

/-- Adds an entry at its place, or replaces the one with the same key. -/
def insert : Dict α → String → α → Dict α
  | [], key, value => [(key, value)]
  | (k, v) :: rest, key, value =>
    if key < k then (key, value) :: (k, v) :: rest
    else if key = k then (key, value) :: rest
    else (k, v) :: insert rest key value

def erase (d : Dict α) (key : String) : Dict α :=
  d.filter (·.1 != key)

/-- The table of a list of entries; of two with one key the later counts. -/
def ofList (entries : List (String × α)) : Dict α :=
  entries.foldl (fun d entry => insert d entry.1 entry.2) []

def mapValues (f : α → β) (d : Dict α) : Dict β :=
  d.map fun entry => (entry.1, f entry.2)

/-! ## Looking up after a change -/

@[simp] theorem get?_nil (key : String) : get? ([] : Dict α) key = none := rfl

theorem get?_cons (k : String) (v : α) (d : Dict α) (key : String) :
    get? ((k, v) :: d) key = if k = key then some v else get? d key := by
  by_cases h : k = key <;> simp [get?, h]

@[simp] theorem contains_eq_isSome (d : Dict α) (key : String) :
    d.contains key = (d.get? key).isSome := by
  induction d with
  | nil => rfl
  | cons entry rest ih =>
    obtain ⟨k, v⟩ := entry
    have hc : contains ((k, v) :: rest) key = (k == key || contains rest key) := rfl
    rw [hc, get?_cons, ih]
    by_cases h : k = key <;> simp [h]

theorem get?_insert (d : Dict α) (key other : String) (value : α) :
    (d.insert key value).get? other = if key = other then some value else d.get? other := by
  induction d with
  | nil => simp [insert, get?_cons]
  | cons entry rest ih =>
    obtain ⟨k, v⟩ := entry
    unfold insert
    split
    · simp [get?_cons]
    · split
      · rename_i h
        by_cases ho : key = other <;> simp [get?_cons, ← h, ho]
      · rename_i h
        rw [get?_cons, get?_cons, ih]
        by_cases ho : key = other
        · have hk : k ≠ other := fun e => h (ho.trans e.symm)
          simp [ho, hk]
        · simp [ho]

theorem get?_erase (d : Dict α) (key other : String) :
    (d.erase key).get? other = if key = other then none else d.get? other := by
  induction d with
  | nil => simp [erase]
  | cons entry rest ih =>
    obtain ⟨k, v⟩ := entry
    by_cases h : k = key
    · have : erase ((k, v) :: rest) key = erase rest key := by simp [erase, h]
      rw [this, ih, get?_cons]
      by_cases ho : key = other <;> simp [ho, h]
    · have : erase ((k, v) :: rest) key = (k, v) :: erase rest key := by simp [erase, h]
      rw [this, get?_cons, get?_cons, ih]
      by_cases ho : key = other
      · have hk : k ≠ other := fun e => h (e.trans ho.symm)
        simp [ho, hk]
      · simp [ho]

theorem get?_mapValues (f : α → β) (d : Dict α) (key : String) :
    (d.mapValues f).get? key = (d.get? key).map f := by
  induction d with
  | nil => rfl
  | cons entry rest ih =>
    obtain ⟨k, v⟩ := entry
    have : mapValues f ((k, v) :: rest) = (k, f v) :: mapValues f rest := rfl
    rw [this, get?_cons, get?_cons, ih]
    by_cases h : k = key <;> simp [h]

end Dict

/-- Sorted texts without repeats. -/
abbrev TextSet := List String

namespace TextSet

def insert : TextSet → String → TextSet
  | [], t => [t]
  | s :: rest, t =>
    if t < s then t :: s :: rest
    else if t = s then s :: rest
    else s :: insert rest t

def erase (set : TextSet) (t : String) : TextSet :=
  set.filter (· != t)

def ofList (ts : List String) : TextSet :=
  ts.foldl insert []

end TextSet
end Flowgraph
