import Flowgraph.Level.Expansion
import Flowgraph.Proofs.ScopeChain
/-! Whose definition of a variable counts in an instance. A definition of the usage node takes the place of the first
one that the template has of this name, but the value of a variable is that of the last one: the two rules agree as
long as the template does not define the name twice. -/
namespace Flowgraph

namespace EnvEntry

/-- The definitions of one name, in order. -/
def named (entries : List EnvEntry) (name : String) : List EnvEntry := entries.filter (·.name == name)

theorem lastOf?_eq_getLast? (entries : List EnvEntry) (name : String) :
    lastOf? entries name = (named entries name).getLast? := by
  rw [lastOf?, named, ← List.head?_filter, List.filter_reverse, List.head?_reverse]

theorem named_cons_self (e : EnvEntry) (entries : List EnvEntry) :
    named (e :: entries) e.name = e :: named entries e.name :=
  List.filter_cons_of_pos (beq_self_eq_true _)

theorem named_cons_of_ne {e : EnvEntry} {name : String} (h : e.name ≠ name) (entries : List EnvEntry) :
    named (e :: entries) name = named entries name :=
  List.filter_cons_of_neg (by simpa using h)

end EnvEntry

namespace Binding

open EnvEntry

variable {name : String}

/-! ## One definition of the usage node -/

theorem overrideEntry_cons (e d : EnvEntry) (entries : List EnvEntry) :
    overrideEntry (d :: entries) e = if d.name = e.name then e :: entries else d :: overrideEntry entries e := by
  unfold overrideEntry
  rw [List.findIdx?_cons]
  by_cases h : d.name = e.name
  · simp [h]
  · rw [if_neg h, if_neg (by simpa using h)]
    cases entries.findIdx? (·.name == e.name) <;> rfl

/-- Definitions of other names stay. -/
theorem named_overrideEntry_of_ne {e : EnvEntry} (h : e.name ≠ name) (entries : List EnvEntry) :
    named (overrideEntry entries e) name = named entries name := by
  induction entries with
  | nil => exact named_cons_of_ne h []
  | cons d entries ih =>
    rw [overrideEntry_cons]
    split
    · rename_i hd
      rw [named_cons_of_ne h, named_cons_of_ne (hd ▸ h)]
    · unfold named at ih ⊢
      rw [List.filter_cons, List.filter_cons, ih]

/-- Of the definitions of its own name only the first gives way. -/
theorem named_overrideEntry_self (e : EnvEntry) (entries : List EnvEntry) :
    named (overrideEntry entries e) e.name = e :: (named entries e.name).tail := by
  induction entries with
  | nil => exact named_cons_self e []
  | cons d entries ih =>
    rw [overrideEntry_cons]
    split
    · rename_i hd
      rw [named_cons_self, ← hd, named_cons_self, List.tail_cons]
    · rename_i hd
      rw [named_cons_of_ne hd, named_cons_of_ne hd, ih]

/-! ## All definitions of the usage node -/

/-- In the end the last definition of the usage node stands where the template had its first one. -/
theorem named_foldl_overrideEntry (entries own : List EnvEntry) (name : String) :
    named (own.foldl overrideEntry entries) name =
      match lastOf? own name with
      | none => named entries name
      | some e => e :: (named entries name).tail := by
  induction own generalizing entries with
  | nil => rfl
  | cons u own ih =>
    rw [List.foldl_cons, ih, lastOf?_eq_getLast?, lastOf?_eq_getLast?]
    by_cases h : u.name = name
    · subst h
      rw [named_cons_self, named_overrideEntry_self, List.getLast?_cons]
      cases (named own u.name).getLast? <;> rfl
    · rw [named_cons_of_ne h, named_overrideEntry_of_ne h]

variable (b : Binding) (outer : Lookup) (name : String)

/-- The definition of a variable that counts in an instance. -/
theorem lastOf?_envEntries : lastOf? b.envEntries name =
    match lastOf? b.usage.envEntries name with
    | none => lastOf? b.template.env name
    | some e => if (named b.template.env name).length ≤ 1 then some e else lastOf? b.template.env name := by
  rw [lastOf?_eq_getLast? b.envEntries, envEntries, named_foldl_overrideEntry]
  cases lastOf? b.usage.envEntries name with
  | none => exact (lastOf?_eq_getLast? _ _).symm
  | some e =>
    dsimp only
    rw [lastOf?_eq_getLast?]
    match named b.template.env name with
    | [] => rfl
    | [_] => rfl
    | _ :: d :: rest => simp [List.getLast?_cons_cons]

/-- The last definition of the usage node gives a variable its value, unless the template defines the name more than
once: then, and where the usage node does not define it, the last definition of the template does. -/
theorem usage_definitions_count : (∀ e, lastOf? b.usage.envEntries name = some e →
      (named b.template.env name).length ≤ 1 →
      (Scope.evaluate outer b.envEntries).get? name = some (Scope.valueOf outer e)) ∧
    (lastOf? b.usage.envEntries name = none ∨ 1 < (named b.template.env name).length →
      (Scope.evaluate outer b.envEntries).get? name =
        (lastOf? b.template.env name).map (Scope.valueOf outer)) := by
  rw [Scope.get?_evaluate, lastOf?_envEntries]
  refine ⟨fun e he hone => ?_, fun h => ?_⟩
  · rw [he]
    dsimp only
    rw [if_pos hone, Option.map_some]
  · cases hown : lastOf? b.usage.envEntries name with
    | none => rfl
    | some e =>
      have hmany := h.resolve_left (by simp [hown])
      dsimp only
      rw [if_neg (Nat.not_le.mpr hmany)]

/-- The definition of a variable as a text. -/
def textEntry (name value : String) : EnvEntry := ⟨name, .str value, "str"⟩

/-- An instance of a template that defines `A` twice and `B` once. The usage node defines `A` once and `B` twice. -/
def contested : Binding :=
  make { id := "s", name := none, inputs := [], outputs := [], status := none, complete := none,
         env := [textEntry "A" "1", textEntry "A" "2", textEntry "B" "5"], nodes := [] }
    ⟨"u", "subflow:s", some "t", none, false,
      [("env", .arr [(textEntry "A" "3").toJson, (textEntry "B" "6").toJson, (textEntry "B" "7").toJson])]⟩ 0

/-- For `A` the template still has its last word, and for `B` the usage node. -/
theorem contested_definitions (outer : Lookup) :
    lastOf? contested.usage.envEntries "A" = some (textEntry "A" "3") ∧
    (Scope.evaluate outer contested.envEntries).get? "A" = some (.str "2") ∧
    (Scope.evaluate outer contested.envEntries).get? "B" = some (.str "7") := by
  obtain ⟨-, hkept⟩ := usage_definitions_count contested outer "A"
  obtain ⟨hown, -⟩ := usage_definitions_count contested outer "B"
  exact ⟨by decide +kernel, hkept (.inr (by decide +kernel)),
    hown (textEntry "B" "7") (by decide +kernel) (by decide +kernel)⟩

end Binding
end Flowgraph
