import Mathlib.Data.List.TakeWhile
import Mathlib.Data.UInt

/-!
# Decimal numerals

Plain numerals, and the conversions `std::stoull` and `std::stoll`, which skip blanks, take a
sign, and stop at the first character that is no digit.
-/

namespace Numeral

/-- Decimal digits, and at least one. -/
def Digits (digits : List Char) : Prop := digits ≠ [] ∧ ∀ c ∈ digits, c.isDigit = true

instance (digits : List Char) : Decidable (Digits digits) :=
  @instDecidableAnd _ _ inferInstance (List.decidableBAll _ _)

/-- The number that the digits are written for. -/
def value (digits : List Char) : Nat := Nat.ofDigitChars 10 digits 0

/-- `std::isspace` in the C locale. -/
def isSpace (c : Char) : Bool := c == ' ' || ('\t' ≤ c && c ≤ '\r')

/-- The digits at the front. -/
def digitsOf (cs : List Char) : Option (List Char) :=
  if (cs.takeWhile Char.isDigit).isEmpty then none else some (cs.takeWhile Char.isDigit)

/-- What the conversions read: whether there is a minus sign, and the digits. -/
def scan (cs : List Char) : Option (Bool × List Char) :=
  match cs.dropWhile isSpace with
  | '-' :: rest => (digitsOf rest).map (true, ·)
  | '+' :: rest => (digitsOf rest).map (false, ·)
  | rest => (digitsOf rest).map (false, ·)

/-- `std::stoull`: a minus sign negates modulo `2 ^ 64`, and `none` stands for its exceptions. -/
def stoull (cs : List Char) : Option UInt64 :=
  (scan cs).bind fun (negative, digits) ↦
    if value digits < 2 ^ 64 then
      some (if negative then -UInt64.ofNat (value digits) else UInt64.ofNat (value digits))
    else none

/-- `std::stoll`, where `none` stands for its exceptions. -/
def stoll (cs : List Char) : Option Int :=
  (scan cs).bind fun (negative, digits) ↦
    if negative then if value digits ≤ 2 ^ 63 then some (-(value digits : Int)) else none
    else if value digits < 2 ^ 63 then some (value digits : Int) else none

/-- The signs that the conversions know, and whether they negate. -/
def signs : List (List Char × Bool) := [([], false), (['+'], false), (['-'], true)]

/-- The text has these digits after blanks and a sign, and no further digit after them. -/
inductive Leads : List Char → Bool → List Char → Prop
  | intro (blanks sign digits junk : List Char) {negative : Bool} :
      (∀ c ∈ blanks, isSpace c = true) → (sign, negative) ∈ signs → Digits digits →
      (∀ c ∈ junk.head?, c.isDigit = false) →
      Leads (blanks ++ (sign ++ (digits ++ junk))) negative digits

theorem digitsOf_append {digits junk : List Char} (h : Digits digits)
    (hj : ∀ c ∈ junk.head?, c.isDigit = false) : digitsOf (digits ++ junk) = some digits := by
  have htake : (digits ++ junk).takeWhile Char.isDigit = digits := by
    rw [List.takeWhile_append_of_pos h.2]
    cases junk with
    | nil => simp
    | cons c cs => simp [hj c rfl]
  rw [digitsOf, htake, if_neg (by simpa using h.1)]

theorem digitsOf_eq_some {cs digits : List Char} (h : digitsOf cs = some digits) :
    Digits digits ∧ ∃ junk, cs = digits ++ junk ∧ ∀ c ∈ junk.head?, c.isDigit = false := by
  rw [digitsOf] at h
  split at h
  · cases h
  · next hne =>
    obtain rfl := Option.some.inj h
    refine ⟨⟨by simpa using hne, fun c hc ↦ List.mem_takeWhile_imp hc⟩, cs.dropWhile Char.isDigit,
      (List.takeWhile_append_dropWhile).symm, fun c hc ↦ ?_⟩
    have hhead := List.head?_dropWhile_not Char.isDigit cs
    rw [Option.mem_def.mp hc] at hhead
    simpa using hhead

private theorem not_space_of_digit {c : Char} (h : c.isDigit = true) : isSpace c = false := by
  simp only [Char.isDigit, Bool.and_eq_true, decide_eq_true_eq] at h
  have hr : ¬c ≤ '\r' := fun hc ↦ absurd (UInt32.le_trans h.1 hc) (by decide)
  have hb : c ≠ ' ' := by
    rintro rfl
    exact absurd h.1 (by decide)
  simp [isSpace, hr, hb]

private theorem digits_head {digits : List Char} (h : Digits digits) :
    ∃ c cs, digits = c :: cs ∧ c.isDigit = true := by
  obtain ⟨hne, hall⟩ := h
  cases digits with
  | nil => exact absurd rfl hne
  | cons c cs => exact ⟨c, cs, rfl, hall c List.mem_cons_self⟩

private theorem dropWhile_blanks {blanks rest : List Char} (hb : ∀ c ∈ blanks, isSpace c = true)
    (hr : ∀ c ∈ rest.head?, isSpace c = false) :
    (blanks ++ rest).dropWhile isSpace = rest := by
  rw [List.dropWhile_append_of_pos hb]
  cases rest with
  | nil => rfl
  | cons c cs => rw [List.dropWhile_cons_of_neg (by simp [hr c rfl])]

/-- The conversions read the digits that the text leads with. -/
theorem scan_eq_some_iff {cs digits : List Char} {negative : Bool} :
    scan cs = some (negative, digits) ↔ Leads cs negative digits := by
  constructor
  · intro h
    have hcs := (List.takeWhile_append_dropWhile (p := isSpace) (l := cs)).symm
    have hblanks : ∀ c ∈ cs.takeWhile isSpace, isSpace c = true :=
      fun c hc ↦ List.mem_takeWhile_imp hc
    have hleads (sign rest : List Char) {m : Bool} (hsign : (sign, m) ∈ signs)
        (hdrop : cs.dropWhile isSpace = sign ++ rest)
        (hread : (digitsOf rest).map (m, ·) = some (negative, digits)) :
        Leads cs negative digits := by
      obtain ⟨ds, hds, he⟩ := Option.map_eq_some_iff.mp hread
      obtain ⟨rfl, rfl⟩ := Prod.mk.inj he
      obtain ⟨hdigits, junk, rfl, hjunk⟩ := digitsOf_eq_some hds
      rw [hcs, hdrop]
      exact .intro _ sign ds junk hblanks hsign hdigits hjunk
    rw [scan] at h
    split at h
    · next rest hdrop => exact hleads ['-'] rest (by decide) hdrop h
    · next rest hdrop => exact hleads ['+'] rest (by decide) hdrop h
    · exact hleads [] _ (by decide) rfl h
  · rintro ⟨blanks, sign, digits, junk, hblanks, hsign, hdigits, hjunk⟩
    obtain ⟨c, ds, hc, hdigit⟩ := digits_head hdigits
    have hread := digitsOf_append hdigits hjunk
    simp only [signs, List.mem_cons, Prod.mk.injEq, List.not_mem_nil, or_false] at hsign
    rcases hsign with ⟨rfl, rfl⟩ | ⟨rfl, rfl⟩ | ⟨rfl, rfl⟩
    · rw [scan, dropWhile_blanks hblanks]
      · rw [List.nil_append]
        split
        · next rest he =>
          rw [hc] at he
          obtain rfl : c = '-' := (List.cons.inj he).1
          exact absurd hdigit (by decide)
        · next rest he =>
          rw [hc] at he
          obtain rfl : c = '+' := (List.cons.inj he).1
          exact absurd hdigit (by decide)
        · rw [hread]
          rfl
      · rw [List.nil_append, hc]
        rintro d hd
        obtain rfl : c = d := Option.some.inj hd
        exact not_space_of_digit hdigit
    · rw [scan, dropWhile_blanks hblanks (by simp [isSpace])]
      simp only [List.cons_append, List.nil_append]
      rw [hread]
      rfl
    · rw [scan, dropWhile_blanks hblanks (by simp [isSpace])]
      simp only [List.cons_append, List.nil_append]
      rw [hread]
      rfl

/-! ## Readings of a numeral -/

/-- A plain numeral for a word: digits only. -/
def Plain (cs : List Char) (n : UInt64) : Prop := Digits cs ∧ value cs = n.toNat

/-- A plain numeral for a signed word: digits, or a minus sign and digits. -/
def PlainSigned (cs : List Char) (n : Int) : Prop :=
  Digits cs ∧ n = value cs ∧ n < 2 ^ 63 ∨
    ∃ digits, cs = '-' :: digits ∧ Digits digits ∧ n = -(value digits : Int) ∧ -2 ^ 63 ≤ n

/-- What `stoull` takes for a numeral. -/
def Loose (cs : List Char) (n : UInt64) : Prop :=
  ∃ negative digits, Leads cs negative digits ∧ value digits < 2 ^ 64 ∧
    n = if negative then -UInt64.ofNat (value digits) else UInt64.ofNat (value digits)

/-- What `stoll` takes for a numeral. -/
def LooseSigned (cs : List Char) (n : Int) : Prop :=
  ∃ negative digits, Leads cs negative digits ∧
    (n = if negative then -(value digits : Int) else value digits) ∧ -2 ^ 63 ≤ n ∧ n < 2 ^ 63

theorem stoull_eq_some_iff {cs : List Char} {n : UInt64} : stoull cs = some n ↔ Loose cs n := by
  rw [stoull, Option.bind_eq_some_iff]
  constructor
  · rintro ⟨⟨negative, digits⟩, hscan, h⟩
    simp only at h
    split at h
    · next hlt =>
      exact ⟨negative, digits, scan_eq_some_iff.mp hscan, hlt, (Option.some.inj h).symm⟩
    · cases h
  · rintro ⟨negative, digits, hleads, hlt, rfl⟩
    exact ⟨(negative, digits), scan_eq_some_iff.mpr hleads, if_pos hlt⟩

theorem stoll_eq_some_iff {cs : List Char} {n : Int} : stoll cs = some n ↔ LooseSigned cs n := by
  rw [stoll, Option.bind_eq_some_iff]
  constructor
  · rintro ⟨⟨negative, digits⟩, hscan, h⟩
    refine ⟨negative, digits, scan_eq_some_iff.mp hscan, ?_⟩
    simp only at h
    split at h
    · next hneg =>
      split at h
      · next hle =>
        obtain rfl := Option.some.inj h
        exact ⟨(if_pos hneg).symm, by omega, by omega⟩
      · cases h
    · next hneg =>
      split at h
      · next hlt =>
        obtain rfl := Option.some.inj h
        exact ⟨(if_neg hneg).symm, by omega, by omega⟩
      · cases h
  · rintro ⟨negative, digits, hleads, hn, hmin, hmax⟩
    refine ⟨(negative, digits), scan_eq_some_iff.mpr hleads, ?_⟩
    cases negative with
    | true =>
      simp only [if_true] at hn ⊢
      rw [if_pos (by omega), hn]
    | false =>
      simp only [Bool.false_eq_true, if_false] at hn ⊢
      rw [if_pos (by omega), hn]

theorem Digits.leads {digits sign : List Char} {negative : Bool} (h : Digits digits)
    (hsign : (sign, negative) ∈ signs) : Leads (sign ++ digits) negative digits := by
  have hleads := Leads.intro [] sign digits [] (by simp) hsign h (by simp)
  simpa using hleads

/-- A plain numeral is read as the number it stands for. -/
theorem Plain.loose {cs : List Char} {n : UInt64} (h : Plain cs n) : Loose cs n := by
  obtain ⟨hdigits, hvalue⟩ := h
  refine ⟨false, cs, hdigits.leads List.mem_cons_self, ?_, ?_⟩
  · rw [hvalue]
    exact n.toNat_lt
  · rw [hvalue]
    simp

theorem PlainSigned.loose {cs : List Char} {n : Int} (h : PlainSigned cs n) :
    LooseSigned cs n := by
  rcases h with ⟨hdigits, hn, hmax⟩ | ⟨digits, rfl, hdigits, hn, hmin⟩
  · exact ⟨false, cs, hdigits.leads List.mem_cons_self, hn, by omega, hmax⟩
  · have hsign : (['-'], true) ∈ signs := by decide
    exact ⟨true, digits, hdigits.leads hsign, hn, hmin, by omega⟩

/-! ## Printing -/

/-- `std::to_string` of an unsigned number. -/
def decimal (n : Nat) : List Char := Nat.toDigits 10 n

/-- `std::to_string` of a signed number. -/
def signedDecimal : Int → List Char
  | .ofNat n => decimal n
  | .negSucc n => '-' :: decimal (n + 1)

theorem digits_decimal (n : Nat) : Digits (decimal n) :=
  ⟨Nat.toDigits_ne_nil, fun _ hc ↦ Nat.isDigit_of_mem_toDigits (by decide) (by decide) hc⟩

theorem value_decimal (n : Nat) : value (decimal n) = n := Nat.ofDigitChars_ten_toDigits

/-- What is printed is read back. -/
theorem stoull_decimal (n : UInt64) : stoull (decimal n.toNat) = some n :=
  stoull_eq_some_iff.mpr (Plain.loose ⟨digits_decimal _, value_decimal _⟩)

theorem stoll_signedDecimal {n : Int} (hmin : -2 ^ 63 ≤ n) (hmax : n < 2 ^ 63) :
    stoll (signedDecimal n) = some n := by
  apply stoll_eq_some_iff.mpr
  apply PlainSigned.loose
  cases n with
  | ofNat n => exact .inl ⟨digits_decimal n, by rw [signedDecimal, value_decimal]; rfl, hmax⟩
  | negSucc n =>
    refine .inr ⟨decimal (n + 1), rfl, digits_decimal _, ?_, hmin⟩
    rw [value_decimal]
    rfl

theorem not_mem_decimal {c : Char} (hc : c.isDigit = false) (n : Nat) : c ∉ decimal n := by
  intro hmem
  rw [(digits_decimal n).2 c hmem] at hc
  exact absurd hc (by decide)

theorem not_mem_signedDecimal {c : Char} (hc : c.isDigit = false) (hsign : c ≠ '-') (n : Int) :
    c ∉ signedDecimal n := by
  cases n with
  | ofNat n => exact not_mem_decimal hc n
  | negSucc n => exact List.not_mem_cons_of_ne_of_not_mem hsign (not_mem_decimal hc _)

end Numeral
