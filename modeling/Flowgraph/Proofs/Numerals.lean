import Mathlib.Algebra.Order.Field.Power
import Mathlib.Data.List.TakeWhile
import Flowgraph.Json.Printer
import Flowgraph.Json.Reader
import Flowgraph.Text.Blank
/-! Integers written out in decimal, and what the readers of numbers make of the text: as an integer of 64 bits with
sign, as a floating-point number, and as a number of JSON. -/
namespace Flowgraph

/-- The integers that a number can hold: those of 64 bits, with sign or without. -/
def Number.Holds (i : Int) : Prop := -2 ^ 63 ≤ i ∧ i < 2 ^ 64

instance : DecidablePred Number.Holds := fun i => inferInstanceAs (Decidable (-2 ^ 63 ≤ i ∧ i < 2 ^ 64))

namespace Text
variable {before cs after : List Char}

/-- A text of white space alone. -/
def Blank (s : String) : Prop := ∀ c ∈ s.toList, isBlank c = true

instance : DecidablePred Blank := fun s => List.decidableBAll _ s.toList

theorem isBlank_of_isDigit {c : Char} (h : c.isDigit = true) : isBlank c = false := by
  have hc : 48 ≤ c.toNat ∧ c.toNat ≤ 57 := by simpa [Char.isDigit, UInt32.le_iff_toNat_le] using h
  simp [isBlank, blankRanges]
  omega

theorem dropWhile_isBlank (hb : ∀ c ∈ before, isBlank c = true) (hcs : ∀ c ∈ cs.head?, isBlank c = false) :
    (before ++ cs).dropWhile isBlank = cs := by
  rw [List.dropWhile_append_of_pos hb]
  cases cs with
  | nil => rfl
  | cons c cs => simp [hcs c rfl]

/-- White space around a text without any is dropped. -/
theorem trim_blanks (hb : ∀ c ∈ before, isBlank c = true) (ha : ∀ c ∈ after, isBlank c = true) (hne : cs ≠ [])
    (hcs : ∀ c ∈ cs, isBlank c = false) : trim (before ++ cs ++ after) = cs := by
  have hfront : (before ++ (cs ++ after)).dropWhile isBlank = cs ++ after := by
    obtain ⟨c, rest, rfl⟩ := List.exists_cons_of_ne_nil hne
    exact dropWhile_isBlank hb fun c' hc => hcs c' (by simp_all)
  have hback : (after.reverse ++ cs.reverse).dropWhile isBlank = cs.reverse :=
    dropWhile_isBlank (by simpa using ha) fun c hc => hcs c (by simpa using List.mem_of_mem_head? hc)
  rw [trim, List.append_assoc, hfront, List.reverse_append, hback, List.reverse_reverse]

end Text

/-! ## The digits -/

theorem isDigit_toDigits {n : Nat} {c : Char} (h : c ∈ Nat.toDigits 10 n) : c.isDigit = true :=
  Nat.isDigit_of_mem_toDigits (by decide) (by decide) h

theorem isDigit_of_toDigits_eq {n : Nat} {c : Char} {cs : List Char} (h : Nat.toDigits 10 n = c :: cs) :
    c.isDigit = true :=
  isDigit_toDigits (h ▸ List.mem_cons_self)

theorem all_isDigit_toDigits (n : Nat) : (Nat.toDigits 10 n).all Char.isDigit = true := by
  simpa using fun c => isDigit_toDigits

theorem takeWhile_toDigits (n : Nat) : (Nat.toDigits 10 n).takeWhile Char.isDigit = Nat.toDigits 10 n :=
  List.takeWhile_eq_self_iff.mpr fun _ => isDigit_toDigits

theorem dropWhile_toDigits (n : Nat) : (Nat.toDigits 10 n).dropWhile Char.isDigit = [] :=
  List.dropWhile_eq_nil_iff.mpr fun _ => isDigit_toDigits

/-- Only the digits of nought begin with nought. -/
theorem eq_zero_of_head?_toDigits (n : Nat) (h : (Nat.toDigits 10 n).head? = some '0') : n = 0 := by
  induction n using Nat.strongRecOn with
  | _ n ih =>
    rw [Nat.toDigits_eq_if (by decide)] at h
    split at h
    · simpa using h
    · have hfront : (Nat.toDigits 10 (n / 10)).head? = some '0' := by
        rwa [List.head?_append, Option.or_of_isSome (by simp)] at h
      have := ih (n / 10) (by omega) hfront
      omega

theorem Number.toList_text (i : Int) : (Number.int i).text.toList =
    if i < 0 then '-' :: Nat.toDigits 10 i.natAbs else Nat.toDigits 10 i.natAbs := by
  change (if i < 0 then "-" ++ i.natAbs.repr else i.natAbs.repr).toList = _
  split <;> simp

namespace Decimal

theorem digitsValue_toDigits (n : Nat) : digitsValue (Nat.toDigits 10 n) = n := by
  rw [digitsValue, ← Nat.ofDigitChars_eq_foldl, Nat.ofDigitChars_ten_toDigits]

theorem natural?_toDigits (n : Nat) : natural? (Nat.toDigits 10 n) = some n := by
  simp [natural?, all_isDigit_toDigits, digitsValue_toDigits]

/-- Digits have no sign in front of them. -/
theorem signed_toDigits (n : Nat) : signed (Nat.toDigits 10 n) = (false, Nat.toDigits 10 n) := by
  unfold signed
  split
  · rename_i rest hcs
    simpa using isDigit_of_toDigits_eq hcs
  · rename_i rest hcs
    simpa using isDigit_of_toDigits_eq hcs
  · rfl

theorem signed_text (i : Int) : signed (Number.int i).text.toList = (decide (i < 0), Nat.toDigits 10 i.natAbs) := by
  rw [Number.toList_text]
  split
  · simp [signed, *]
  · simp [signed_toDigits, *]

/-- The text of an integer is read as it if 64 bits with sign hold it, and is refused otherwise. -/
theorem signed64?_text (i : Int) :
    signed64? (Number.int i).text.toList = if -2 ^ 63 ≤ i ∧ i < 2 ^ 63 then some i else none := by
  have hi : (if decide (i < 0) = true then -(i.natAbs : Int) else i.natAbs) = i := by
    simp only [decide_eq_true_eq]
    split <;> omega
  unfold signed64?
  rw [signed_text]
  simp only [natural?_toDigits, Option.bind_eq_bind, Option.bind_some, hi]
  simp

/-- As a floating-point number it is read in any case. -/
theorem float?_text (i : Int) :
    float? (Number.int i).text.toList = nearest? (decide (i < 0)) i.natAbs 0 := by
  unfold float?
  rw [signed_text]
  simp [takeWhile_toDigits, dropWhile_toDigits, exponent?, digitsValue_toDigits]

/-- A whole number of 64 bits is in range. -/
theorem nearest?_whole {n : Nat} (hn : 0 < n) (h : n < 2 ^ 64) : nearest? false n 0 = Binary.ofRatio? false n 1 := by
  have hsize : (Nat.toDigits 10 n).length ≤ 20 :=
    (Nat.length_toDigits_le_iff (by decide) (by decide)).mpr (Nat.lt_trans h (by decide))
  unfold nearest?
  dsimp only
  rw [if_neg (by omega), if_neg (by omega), if_neg (by omega), if_pos (by decide)]
  simp

end Decimal

/-! ## In JSON -/

namespace Json

/-- Digits are gathered as long as 64 bits hold what they stand for. -/
theorem gather_of_lt {n : Nat} {cs : List Char} (h : Nat.ofDigitChars 10 cs n < 2 ^ 64) :
    gather n cs = (Nat.ofDigitChars 10 cs n, []) := by
  induction cs generalizing n with
  | nil => simp [gather]
  | cons c cs ih =>
    rw [Nat.ofDigitChars_cons, Nat.mul_comm] at h
    -- What has been gathered never exceeds the whole, so a bound on the whole lets every step pass.
    have hle : n * 10 + (c.toNat - '0'.toNat) ≤ Nat.ofDigitChars 10 cs (n * 10 + (c.toNat - '0'.toNat)) := by
      rw [Nat.ofDigitChars_eq_ofDigitChars_zero]
      exact Nat.le_add_right_of_le (Nat.le_mul_of_pos_left _ (Nat.pow_pos (by decide)))
    unfold gather
    dsimp only
    have hfits : n * 10 + (c.toNat - '0'.toNat) < Nat.pow 2 64 := Nat.lt_of_le_of_lt hle h
    rw [if_pos hfits, ih h, Nat.ofDigitChars_cons, Nat.mul_comm]

/-- A number of JSON without point and exponent, whose digits 64 bits hold. -/
theorem number?_digits (n : Nat) (h : n < 2 ^ 64) :
    number? (Nat.toDigits 10 n) = (integer false n).map (·, []) ∧
      number? ('-' :: Nat.toDigits 10 n) = (integer true n).map (·, []) := by
  have hgather : gather 0 (Nat.toDigits 10 n) = (n, []) := by
    rw [gather_of_lt (by simpa using h), Nat.ofDigitChars_ten_toDigits]
  have hzero : ((Nat.toDigits 10 n).head? == some '0' && (Nat.toDigits 10 n).length != 1) = false := by
    by_cases h0 : (Nat.toDigits 10 n).head? = some '0'
    · simp [eq_zero_of_head?_toDigits n h0]
    · simp [h0]
  constructor
  · unfold number?
    split
    rename_i negative cs hcs
    obtain ⟨rfl, rfl⟩ : negative = false ∧ cs = Nat.toDigits 10 n := by
      split at hcs
      · rename_i rest hminus
        simpa using isDigit_of_toDigits_eq hminus
      · cases hcs
        exact ⟨rfl, rfl⟩
    simp [takeWhile_toDigits, dropWhile_toDigits, hzero, hgather, exponentPart?, Option.map_eq_bind]
  · unfold number?
    simp [takeWhile_toDigits, dropWhile_toDigits, hzero, hgather, exponentPart?, Option.map_eq_bind]

/-- The text of an integer that a number can hold is read as that number. -/
theorem number?_text {i : Int} (h : Number.Holds i) : number? (Number.int i).text.toList = some (.int i, []) := by
  obtain ⟨hl, hh⟩ := h
  obtain ⟨hpos, hneg⟩ := number?_digits i.natAbs (by omega)
  rw [Number.toList_text]
  split
  · have hfits : (decide (0 < i.natAbs) && decide (i.natAbs ≤ Nat.pow 2 63)) = true := by simp; omega
    have hi : -(i.natAbs : Int) = i := by omega
    rw [hneg, integer, if_neg (by decide), if_pos hfits, hi]
    rfl
  · have hi : (i.natAbs : Int) = i := by omega
    rw [hpos, integer, if_pos (by decide), hi]
    rfl

/-- What begins with a digit or a minus sign is a number. -/
theorem value?_of_head {c : Char} (hc : c.isDigit = true ∨ c = '-') (fuel depth : Nat) (cs : List Char) :
    value? (fuel + 1) depth (c :: cs) = (number? (c :: cs)).map fun (n, rest) => (.num n, rest) := by
  have hskip : skipGap (c :: cs) = c :: cs := by
    refine List.dropWhile_cons_of_neg fun hgap => ?_
    simp [isGap] at hgap
    rcases hgap with ((rfl | rfl) | rfl) | rfl <;> simp at hc
  unfold value?
  rw [hskip]
  split <;> simp_all

theorem exists_head_text (i : Int) :
    ∃ c cs, (Number.int i).text.toList = c :: cs ∧ (c.isDigit = true ∨ c = '-') := by
  rw [Number.toList_text]
  split
  · exact ⟨'-', _, rfl, .inr rfl⟩
  · obtain ⟨c, cs, hcs⟩ := List.exists_cons_of_ne_nil (Nat.toDigits_ne_nil (n := i.natAbs) (b := 10))
    exact ⟨c, cs, hcs, .inl (isDigit_of_toDigits_eq hcs)⟩

/-- In JSON, an integer that a number can hold is read as it was written. -/
theorem read?_text {i : Int} (h : Number.Holds i) : read? (Number.int i).text = some (.int i) := by
  obtain ⟨c, cs, hcs, hc⟩ := exists_head_text i
  have hnumber := number?_text h
  rw [hcs] at hnumber
  unfold read? readUnsorted?
  dsimp only
  rw [hcs, value?_of_head hc, hnumber]
  rfl

end Json
end Flowgraph
