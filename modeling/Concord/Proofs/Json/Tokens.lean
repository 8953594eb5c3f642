import Mathlib.Data.List.Basic
import Concord.Json.Reader
import Concord.Json.Writer

/-! Numbers and strings of JSON texts. What is written for an integer or a string is read back,
whatever follows it, as long as no more digits follow the integer.
-/

namespace Concord.Json

-----------------------------------------------------------------------------------------
-- Numbers
-----------------------------------------------------------------------------------------

/-- A number written with digits alone. -/
structure Number.Whole (n : Number) : Prop where
  integral : n.integral = true
  places : n.places = 0
  exponent : n.exponent = 0

theorem Number.whole_ofInt (i : Int) : (Number.ofInt i).Whole :=
  ⟨rfl, rfl, rfl⟩

/-- The text does not go on with what could belong to a number. -/
def Ends (cs : List Char) : Prop :=
  ∀ c ∈ cs.head?, c.isDigit = false ∧ c ≠ '.' ∧ c ≠ 'e' ∧ c ≠ 'E'

/-- The digits of a number do not start with a zero, unless zero is all of it. -/
theorem head_toDigits {n : Nat} (h : 0 < n) : ∃ c cs, Nat.toDigits 10 n = c :: cs ∧ c ≠ '0' := by
  induction n using Nat.strongRecOn with
  | ind n ih =>
      by_cases small : n < 10
      · refine ⟨n.digitChar, [], Nat.toDigits_of_lt_base small, ?_⟩
        have all : ∀ d : Fin 10, 0 < d.val → Nat.digitChar d.val ≠ '0' := by decide
        exact all ⟨n, small⟩ h
      · obtain ⟨c, cs, digits, first⟩ := ih (n / 10) (by omega) (by omega)
        exact ⟨c, cs ++ [(n % 10).digitChar],
          by rw [Nat.toDigits_of_base_le (by decide) (by omega), digits]; rfl, first⟩

namespace Reader

/-- Digits are read up to the first character that is none. -/
theorem digits_append {ds rest : List Char} (some : ds ≠ [])
    (all : ∀ c ∈ ds, c.isDigit = true) (ends : Ends rest)
    : digits (ds ++ rest) = .some (ds, rest) := by
  have stop : rest.takeWhile Char.isDigit = [] ∧ rest.dropWhile Char.isDigit = rest := by
    cases rest with
    | nil => exact ⟨rfl, rfl⟩
    | cons c rest =>
        have none := (ends c rfl).1
        simp [none]
  rw [digits, List.takeWhile_append_of_pos all, List.dropWhile_append_of_pos all, stop.1, stop.2,
    List.append_nil]
  cases ds with
  | nil => exact absurd rfl some
  | cons d ds => rfl

theorem isDigit_decimal (n : Nat) : ∀ c ∈ Writer.decimal n, c.isDigit = true :=
  fun _ hc => Nat.isDigit_of_mem_toDigits (by decide) (by decide) hc

/-- A number is read from its own digits. -/
theorem whole_decimal (n : Nat) {rest : List Char} (ends : Ends rest)
    : whole (Writer.decimal n ++ rest) = some (Writer.decimal n, rest) := by
  have nonempty : Writer.decimal n ≠ [] := Nat.toDigits_ne_nil
  rw [whole, digits_append nonempty (isDigit_decimal n) ends]
  split
  · rename_i c more after same
    obtain ⟨leading, -⟩ := Prod.mk.inj (Option.some.inj same)
    rcases Nat.eq_zero_or_pos n with rfl | positive
    · cases leading
    · obtain ⟨d, ds, digits, first⟩ := head_toDigits positive
      rw [Writer.decimal, digits] at leading
      exact absurd (List.cons.inj leading).1 first
  · rfl

theorem decimal_decimal (n : Nat) : decimal (Writer.decimal n) = n :=
  Nat.ofDigitChars_toDigits (by decide) (by decide)

theorem fraction_of_ends {rest : List Char} (ends : Ends rest)
    : fraction rest = some (none, rest) := by
  rw [fraction.eq_def]
  split
  · exact absurd rfl (ends _ rfl).2.1
  · rfl

theorem exponent_of_ends {rest : List Char} (ends : Ends rest)
    : exponent rest = some (none, rest) := by
  cases rest with
  | nil => rfl
  | cons c rest =>
      obtain ⟨-, -, small, large⟩ := ends c rfl
      simp [exponent, small, large]

theorem unsigned_decimal (negative : Bool) (n : Nat) {rest : List Char} (ends : Ends rest)
    : unsigned negative (Writer.decimal n ++ rest)
      = some ({ negative, significand := n }, rest) := by
  simp [unsigned, whole_decimal n ends, fraction_of_ends ends, exponent_of_ends ends,
    decimal_decimal]

/-- A whole number is read as it was written. -/
theorem number_written {n : Number} (h : n.Whole) {rest : List Char} (ends : Ends rest)
    : number (Writer.number n ++ rest) = some (n, rest) := by
  obtain ⟨negative, significand, places, exponent, integral⟩ := n
  obtain ⟨rfl, rfl, rfl⟩ := h
  cases negative with
  | true =>
      simp only [Writer.number, if_true, List.append_nil, List.cons_append, List.nil_append]
      exact unsigned_decimal true significand ends
  | false =>
      simp only [Writer.number, Bool.false_eq_true, if_false, List.nil_append, if_true,
        List.append_nil]
      rw [number.eq_def]
      split
      · rename_i more same
        have minus : '-' ∈ Writer.decimal significand := by
          cases digits : Writer.decimal significand with
          | nil => exact absurd digits Nat.toDigits_ne_nil
          | cons d ds =>
              rw [digits] at same
              cases same
              exact List.mem_cons_self
        exact absurd (isDigit_decimal significand _ minus) (by decide)
      · exact unsigned_decimal false significand ends

-----------------------------------------------------------------------------------------
-- Strings
-----------------------------------------------------------------------------------------

/-- The control characters that have an escape of their own. -/
def shortEscapes : List Char :=
  ['\x08', '\x0c', '\n', '\r', '\t']

/-- The part of a literal that stands for a character: control characters without an escape of their
own are given as code units. -/
def pieceOf (c : Char) : Piece :=
  if c.toNat < 32 && !shortEscapes.contains c then .unit c.toNat else .char c

/-- The digits of a control character are read as its number, by going through all of these. -/
theorem hex4?_control {n : Nat} (h : n < 32)
    : hex4? '0' '0' (Nat.digitChar (n / 16)) (Nat.digitChar (n % 16)) = some n := by
  have all : ∀ m : Fin 32,
      hex4? '0' '0' (Nat.digitChar (m / 16)) (Nat.digitChar (m % 16)) = some m.val := by
    decide
  exact all ⟨n, h⟩

theorem pieces_escape {e c : Char} (h : escaped? e = some c) (rest : List Char)
    : pieces ('\\' :: e :: rest)
      = (pieces rest).map fun found => (.char c :: found.1, found.2) := by
  rw [pieces, h, Option.bind_some]
  rintro _ _ _ _ _ rfl
  cases h

theorem pieces_plain {c : Char} (quote : c ≠ '"') (escape : c ≠ '\\') (printable : ¬ c.toNat < 32)
    (rest : List Char)
    : pieces (c :: rest) = (pieces rest).map fun found => (.char c :: found.1, found.2) := by
  rw [pieces]
  · simp [printable, escape]
  · exact quote
  · exact fun _ _ _ _ _ same => absurd same escape
  · exact fun _ _ same => absurd same escape

/-- A written character is read as its part of the literal, by cases on how it is written. -/
theorem pieces_char (c : Char) (rest : List Char)
    : pieces (Writer.char c ++ rest)
      = (pieces rest).map fun found => (pieceOf c :: found.1, found.2) := by
  by_cases quote : c = '"'
  · subst c
    exact pieces_escape rfl rest
  by_cases escape : c = '\\'
  · subst c
    exact pieces_escape rfl rest
  by_cases short : c ∈ shortEscapes
  · -- Each of these is written with a letter that stands for it.
    have plain : pieceOf c = .char c := by simp [pieceOf, short]
    rw [plain]
    simp only [shortEscapes, List.mem_cons, List.not_mem_nil, or_false] at short
    rcases short with rfl | rfl | rfl | rfl | rfl <;> exact pieces_escape rfl rest
  · have long : ¬ shortEscapes.contains c := by simpa using short
    simp only [shortEscapes, List.mem_cons, List.not_mem_nil, or_false, not_or] at short
    obtain ⟨b, f, n, r, t⟩ := short
    simp only [Writer.char, quote, escape, b, f, n, r, t, if_false]
    by_cases control : c.toNat < 32
    · simp only [control, if_true, List.cons_append, List.nil_append, pieces, hex4?_control control,
        Option.bind_some, pieceOf, long, decide_true, Bool.not_false, Bool.and_self]
    · simpa [pieceOf, control] using pieces_plain quote escape control rest

/-- A code unit that is no half of a surrogate pair denotes its character. -/
theorem join_unit {n : Nat} (h : n < 0xD800) (rest : List Piece)
    : join (.unit n :: rest) = (join rest).map (Char.ofNat n :: ·) := by
  have lead : isLead n = false := by simp [isLead]; omega
  have trail : isTrail n = false := by simp [isTrail]; omega
  rw [join.eq_def]
  simp [lead, trail]

/-- The parts of what was written denote what was written, by list induction. -/
theorem join_pieceOf (cs : List Char) : join (cs.map pieceOf) = some cs := by
  induction cs with
  | nil => rfl
  | cons c cs ih =>
      rw [List.map_cons, pieceOf]
      split
      · rename_i control
        have small : c.toNat < 32 := by
          simp only [Bool.and_eq_true, decide_eq_true_eq] at control
          exact control.1
        rw [join_unit (by omega), ih, Option.map_some, Char.ofNat_toNat]
      · simp [join, ih]

/-- Written characters are read up to the closing quote, by list induction. -/
theorem pieces_written (cs rest : List Char)
    : pieces (cs.flatMap Writer.char ++ '"' :: rest) = some (cs.map pieceOf, rest) := by
  induction cs with
  | nil => simp [pieces]
  | cons c cs ih => simp [List.flatMap_cons, pieces_char, ih]

/-- A string is read as it was written. -/
theorem text_written (s : String) (rest : List Char)
    : text (s.toList.flatMap Writer.char ++ '"' :: rest) = some (some s, rest) := by
  rw [text, pieces_written]
  simp [join_pieceOf]

end Reader

end Concord.Json
