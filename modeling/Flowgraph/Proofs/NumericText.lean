import Flowgraph.Proofs.Numerals
import Flowgraph.Proofs.Rounding
import Flowgraph.Proofs.ScopeChain
/-! Numeric definitions, given as a number or as the text of one. An integer is the same either way as long as 64 bits
with sign hold it. The larger ones that a number can hold are rounded when they are given as text, and lose the bits that
a floating-point number has no room for. -/
namespace Flowgraph
namespace Scope

variable {outer : Lookup} {e : EnvEntry} {v : Json} {before after : String}

/-! ## The value of a definition -/

/-- A definition gives its name this value wherever it stands, unless the name is defined again behind it. -/
def Gives (outer : Lookup) (e : EnvEntry) (v : Json) : Prop :=
  ∀ earlier later, (∀ d ∈ later, d.name ≠ e.name) → (evaluate outer (earlier ++ e :: later)).get? e.name = some v

theorem lastOf?_append {earlier later : List EnvEntry} (h : ∀ d ∈ later, d.name ≠ e.name) :
    EnvEntry.lastOf? (earlier ++ e :: later) e.name = some e := by
  have hlater : later.reverse.find? (·.name == e.name) = none := by simpa using h
  simp [EnvEntry.lastOf?, hlater]

theorem gives_iff : Gives outer e v ↔ valueOf outer e = v := by
  constructor
  · intro h
    have hv := h [] [] (by simp)
    rw [get?_evaluate, lastOf?_append (by simp)] at hv
    exact Option.some.inj hv
  · intro h earlier later hlater
    rw [get?_evaluate, lastOf?_append hlater, Option.map_some, h]

/-- The numeric definition of a name. -/
def numeric (name : String) (value : Json) : EnvEntry := ⟨name, value, "num"⟩

theorem gives_numeric {name : String} {value w : Json} (h : numberOf? value = some w) :
    Gives outer (numeric name value) v ↔ w = v := by
  have hw : valueOf outer (numeric name value) = (numberOf? value).getD .null := rfl
  rw [gives_iff, hw, h, Option.getD_some]

/-! ## Integers given as text -/

theorem not_isBlank_text (i : Int) : ∀ c ∈ (Number.int i).text.toList, Text.isBlank c = false := by
  intro c hc
  rw [Number.toList_text] at hc
  split at hc
  · rcases List.mem_cons.mp hc with rfl | hc
    · decide
    · exact Text.isBlank_of_isDigit (isDigit_toDigits hc)
  · exact Text.isBlank_of_isDigit (isDigit_toDigits hc)

/-- The text of an integer is read as an integer of 64 bits with sign, or else as a floating-point number. White space
around it does not matter. -/
theorem numberOf?_text (hb : Text.Blank before) (ha : Text.Blank after) (i : Int) :
    numberOf? (.str (before ++ (Number.int i).text ++ after)) =
      if -2 ^ 63 ≤ i ∧ i < 2 ^ 63 then some (.int i)
      else (Decimal.nearest? (decide (i < 0)) i.natAbs 0).map fun x => .num (.float x) := by
  obtain ⟨c, cs, hcs, -⟩ := Json.exists_head_text i
  have htrim : Text.trim (before ++ (Number.int i).text ++ after).toList = (Number.int i).text.toList := by
    rw [String.toList_append, String.toList_append]
    exact Text.trim_blanks hb ha (by simp [hcs]) (not_isBlank_text i)
  unfold numberOf?
  dsimp only
  rw [htrim, Decimal.signed64?_text, Decimal.float?_text]
  by_cases h : -2 ^ 63 ≤ i ∧ i < 2 ^ 63
  · rw [if_pos h, if_pos h]
  · rw [if_neg h, if_neg h]

/-- Beyond the integers of 64 bits with sign, the text of an integer gives the nearest floating-point number. It is the
integer itself if and only if the last eleven bits are nought. -/
theorem numberOf?_text_large (hb : Text.Blank before) (ha : Text.Blank after) {i : Int} (hl : 2 ^ 63 ≤ i)
    (hh : i < 2 ^ 64) : ∃ x, numberOf? (.str (before ++ (Number.int i).text ++ after)) = some (.num (.float x)) ∧
      x.Nearest i ∧ (x.value = i ↔ 2 ^ 11 ∣ i) := by
  obtain ⟨n, rfl⟩ := Int.eq_ofNat_of_zero_le (by omega : 0 ≤ i)
  -- The integer has 64 bits, eleven more than a mantissa.
  obtain ⟨x, hx, hnearest, hexact⟩ := Binary.ofRatio?_whole (n := n) (k := 11) (by omega) (by omega) (by omega)
  have hnot : ¬(-2 ^ 63 ≤ (n : Int) ∧ (n : Int) < 2 ^ 63) := by omega
  have hsign : decide ((n : Int) < 0) = false := by simp
  refine ⟨x, ?_, by simpa using hnearest, ?_⟩
  · rw [numberOf?_text hb ha, if_neg hnot, hsign, Int.natAbs_natCast, Decimal.nearest?_whole (by omega) (by omega), hx,
      Option.map_some]
  · rw [Int.cast_natCast, hexact]
    omega

/-- A numeric definition whose text is an integer gives the value that the integer itself gives, if and only if 64 bits
with sign hold it. Any larger one that a number can hold becomes the nearest floating-point number, which differs from
it unless its last eleven bits are nought. In a definition of kind `json` the same text keeps each of them. -/
theorem integer_text_kept_iff (outer : Lookup) (name : String) {i : Int} (hi : Number.Holds i)
    (hb : Text.Blank before) (ha : Text.Blank after) :
    Gives outer (numeric name (.int i)) (.int i) ∧
    (Gives outer (numeric name (.str (before ++ (Number.int i).text ++ after))) (.int i) ↔ i < 2 ^ 63) ∧
    (2 ^ 63 ≤ i → ∃ x : Binary,
      Gives outer (numeric name (.str (before ++ (Number.int i).text ++ after))) (.num (.float x)) ∧
      x.Nearest i ∧ (x.value = i ↔ 2 ^ 11 ∣ i)) ∧
    Gives outer ⟨name, .str (Number.int i).text, "json"⟩ (.int i) := by
  have ⟨hl, hh⟩ := hi
  refine ⟨(gives_numeric rfl).mpr rfl, ?_, fun hlarge => ?_, ?_⟩
  · rcases lt_or_ge i (2 ^ 63) with hsmall | hlarge
    · have hkept := numberOf?_text hb ha i
      rw [if_pos ⟨hl, hsmall⟩] at hkept
      exact ⟨fun _ => hsmall, fun _ => (gives_numeric hkept).mpr rfl⟩
    · obtain ⟨x, hx, -⟩ := numberOf?_text_large hb ha hlarge hh
      rw [gives_numeric hx]
      have hne : ¬Json.num (.float x) = .int i := fun h => by cases h
      exact iff_of_false hne (not_lt.mpr hlarge)
  · obtain ⟨x, hx, hnearest⟩ := numberOf?_text_large hb ha hlarge hh
    exact ⟨x, (gives_numeric hx).mpr rfl, hnearest⟩
  · rw [gives_iff]
    change (Json.read? (Number.int i).text).getD _ = _
    rw [Json.read?_text hi, Option.getD_some]

/-- The largest integer that a number can hold is rounded up when it is given as text; the least one is kept. -/
theorem largest_integer_text_rounded :
    (Number.Holds (2 ^ 64 - 1) ∧ Number.Holds (-2 ^ 63) ∧ Text.Blank " \t" ∧ Text.Blank "\n") ∧
    Gives (fun _ => none) (numeric "N" (.int (2 ^ 64 - 1))) (.int (2 ^ 64 - 1)) ∧
    ¬Gives (fun _ => none) (numeric "N" (.str " \t18446744073709551615\n")) (.int (2 ^ 64 - 1)) ∧
    Gives (fun _ => none) (numeric "N" (.str " \t18446744073709551615\n")) (.num (.float ⟨false, 2 ^ 52, 12⟩)) ∧
    Gives (fun _ => none) (numeric "N" (.str " \t-9223372036854775808\n")) (.int (-2 ^ 63)) := by
  have hlargest : Number.Holds (2 ^ 64 - 1) := by decide +kernel
  have hleast : Number.Holds (-2 ^ 63) := by decide +kernel
  have hb : Text.Blank " \t" := by decide
  have ha : Text.Blank "\n" := by decide
  obtain ⟨hnumber, hkept, -⟩ := integer_text_kept_iff (fun _ => none) "N" hlargest hb ha
  obtain ⟨-, hkept', -⟩ := integer_text_kept_iff (fun _ => none) "N" hleast hb ha
  rw [show " \t" ++ (Number.int (2 ^ 64 - 1)).text ++ "\n" = " \t18446744073709551615\n" by decide +kernel] at hkept
  rw [show " \t" ++ (Number.int (-2 ^ 63)).text ++ "\n" = " \t-9223372036854775808\n" by decide +kernel] at hkept'
  exact ⟨⟨hlargest, hleast, hb, ha⟩, hnumber, fun h => absurd (hkept.mp h) (by decide),
    gives_iff.mpr (by decide +kernel), hkept'.mpr (by decide)⟩

end Scope
end Flowgraph
