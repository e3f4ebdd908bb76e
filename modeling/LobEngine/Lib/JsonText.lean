import LobEngine.Lib.Numerals
import Mathlib.Algebra.Field.Rat
import Mathlib.Tactic.IntervalCases

/-!
# The grammar of JSON texts

RFC 8259 as a relation between the characters of a text and the value they denote. A number
keeps the literal it is written with, and an object lists its members as they are written.
-/

namespace JsonText

open Numeral

/-- `exp`: the mark is `E` or `e`, and the sign may be left out. -/
structure Exponent where
  capital : Bool
  sign : Option Bool
  digits : List Char
  wf : Digits digits

namespace Exponent

def text (e : Exponent) : List Char :=
  (if e.capital then 'E' else 'e') ::
    (match e.sign with | none => [] | some true => ['-'] | some false => ['+']) ++ e.digits

def value (e : Exponent) : Int :=
  if e.sign = some true then -Numeral.value e.digits else Numeral.value e.digits

end Exponent

/-- `number`: no leading zero, and a fraction only with digits. -/
structure Literal where
  negative : Bool
  int : List Char
  frac : Option (List Char)
  exp : Option Exponent
  int_wf : Digits int
  no_leading_zero : int.head? = some '0' → int = ['0']
  frac_wf : ∀ digits ∈ frac, Digits digits

namespace Literal

def text (l : Literal) : List Char :=
  (if l.negative then ['-'] else []) ++ l.int ++ (l.frac.elim [] fun digits ↦ '.' :: digits) ++
    l.exp.elim [] Exponent.text

/-- The number that the literal is written for. -/
def value (l : Literal) : ℚ :=
  (if l.negative then -1 else 1) * Numeral.value (l.int ++ l.frac.getD []) *
    10 ^ (l.exp.elim 0 Exponent.value - ((l.frac.getD []).length : Int))

/-- Written without fraction and exponent. -/
def Integral (l : Literal) : Prop := l.frac = none ∧ l.exp = none

instance (l : Literal) : Decidable l.Integral := by
  unfold Integral
  exact inferInstance

/-- The digits of an integer literal with its sign. -/
def intValue (l : Literal) : Int :=
  if l.negative then -Numeral.value l.int else Numeral.value l.int

theorem Integral.value_eq {l : Literal} (h : l.Integral) : l.value = l.intValue := by
  obtain ⟨hfrac, hexp⟩ := h
  rw [value, intValue, hfrac, hexp]
  cases l.negative <;> simp

end Literal

/-- A JSON value. -/
inductive Value where
  | null
  | bool (b : Bool)
  | number (l : Literal)
  | string (s : String)
  | array (items : List Value)
  | object (members : List (String × Value))

def IsBlank (c : Char) : Prop := c = ' ' ∨ c = '\t' ∨ c = '\n' ∨ c = '\r'

instance (c : Char) : Decidable (IsBlank c) := by
  unfold IsBlank
  exact inferInstance

/-- `ws`. -/
def Blank (cs : List Char) : Prop := ∀ c ∈ cs, IsBlank c

/-- The two-character escapes, and the characters they stand for. -/
def escapes : List (Char × Char) :=
  [('"', '"'), ('\\', '\\'), ('/', '/'), ('b', '\x08'), ('f', '\x0c'), ('n', '\n'), ('r', '\r'),
    ('t', '\t')]

/-- The value of a hexadecimal digit. -/
def hexDigit (c : Char) : Option Nat :=
  if c.isDigit then some (c.toNat - 48)
  else if 'a' ≤ c ∧ c ≤ 'f' then some (c.toNat - 87)
  else if 'A' ≤ c ∧ c ≤ 'F' then some (c.toNat - 55)
  else none

/-- The four digits are hexadecimal and their value is `n`. -/
def Hex4 (digits : List Char) (n : Nat) : Prop :=
  ∃ a b c d : Nat, digits.map hexDigit = [some a, some b, some c, some d] ∧
    n = ((a * 16 + b) * 16 + c) * 16 + d

/-- The characters between the quotation marks, and the string they denote. -/
inductive Chars : List Char → List Char → Prop
  | nil : Chars [] []
  | plain {c : Char} {cs s : List Char} : c ≠ '"' → c ≠ '\\' → 0x20 ≤ c.toNat → Chars cs s →
      Chars (c :: cs) (c :: s)
  | escape {e c : Char} {cs s : List Char} : (e, c) ∈ escapes → Chars cs s →
      Chars ('\\' :: e :: cs) (c :: s)
  | unicode {hex cs s : List Char} {n : Nat} : Hex4 hex n → n.isValidChar → Chars cs s →
      Chars ('\\' :: 'u' :: hex ++ cs) (Char.ofNat n :: s)
  | pair {high low cs s : List Char} {m n : Nat} : Hex4 high (0xd800 + m) → Hex4 low (0xdc00 + n) →
      m < 0x400 → n < 0x400 → Chars cs s →
      Chars ('\\' :: 'u' :: high ++ '\\' :: 'u' :: low ++ cs)
        (Char.ofNat (0x10000 + m * 0x400 + n) :: s)

mutual

/-- `value`. -/
inductive Denotes : List Char → Value → Prop
  | null : Denotes ['n', 'u', 'l', 'l'] .null
  | true : Denotes ['t', 'r', 'u', 'e'] (.bool true)
  | false : Denotes ['f', 'a', 'l', 's', 'e'] (.bool false)
  | number (l : Literal) : Denotes l.text (.number l)
  | string {cs s : List Char} : Chars cs s → Denotes ('"' :: cs ++ ['"']) (.string (.ofList s))
  | emptyArray {ws : List Char} : Blank ws → Denotes ('[' :: ws ++ [']']) (.array [])
  | array {cs : List Char} {v : Value} {vs : List Value} : Elements cs (v :: vs) →
      Denotes ('[' :: cs ++ [']']) (.array (v :: vs))
  | emptyObject {ws : List Char} : Blank ws → Denotes ('\x7b' :: ws ++ ['\x7d']) (.object [])
  | object {cs : List Char} {m : String × Value} {ms : List (String × Value)} :
      Members cs (m :: ms) → Denotes ('\x7b' :: cs ++ ['\x7d']) (.object (m :: ms))

/-- The values of an array, with the separators between them. -/
inductive Elements : List Char → List Value → Prop
  | last {a cs b : List Char} {v : Value} : Blank a → Denotes cs v → Blank b →
      Elements (a ++ cs ++ b) [v]
  | cons {a cs b rest : List Char} {v : Value} {vs : List Value} : Blank a → Denotes cs v →
      Blank b → Elements rest vs → Elements (a ++ cs ++ b ++ ',' :: rest) (v :: vs)

/-- The members of an object, with the separators in and between them. -/
inductive Members : List Char → List (String × Value) → Prop
  | last {a name s b c cs d : List Char} {v : Value} : Blank a → Chars name s → Blank b →
      Blank c → Denotes cs v → Blank d →
      Members (a ++ '"' :: name ++ '"' :: b ++ ':' :: c ++ cs ++ d) [(.ofList s, v)]
  | cons {a name s b c cs d rest : List Char} {v : Value} {ms : List (String × Value)} :
      Blank a → Chars name s → Blank b → Blank c → Denotes cs v → Blank d → Members rest ms →
      Members (a ++ '"' :: name ++ '"' :: b ++ ':' :: c ++ cs ++ d ++ ',' :: rest)
        ((.ofList s, v) :: ms)

end

/-- `JSON-text`: a value with blanks around it. -/
def Text (text : String) (v : Value) : Prop :=
  ∃ a cs b, Blank a ∧ Denotes cs v ∧ Blank b ∧ text.toList = a ++ cs ++ b

/-- The text of an object begins with a blank or with a brace. -/
theorem Text.head {text : String} {members : List (String × Value)}
    (h : Text text (.object members)) :
    ∃ c, text.toList.head? = some c ∧ (IsBlank c ∨ c = '\x7b') := by
  obtain ⟨a, cs, b, ha, hcs, -, htext⟩ := h
  rw [htext]
  cases a with
  | nil =>
    cases hcs with
    | emptyObject _ => exact ⟨_, rfl, .inr rfl⟩
    | object _ => exact ⟨_, rfl, .inr rfl⟩
  | cons c cs' => exact ⟨c, rfl, .inl (ha c List.mem_cons_self)⟩

/-! ## Rendering -/

/-- A character of a string as it is written between quotation marks. -/
def renderChar (c : Char) : List Char :=
  if c = '"' then ['\\', '"']
  else if c = '\\' then ['\\', '\\']
  else if c.toNat < 0x20 then
    ['\\', 'u', '0', '0', Nat.digitChar (c.toNat / 16), Nat.digitChar (c.toNat % 16)]
  else [c]

def renderString (s : String) : List Char := '"' :: s.toList.flatMap renderChar ++ ['"']

mutual

/-- The text of a value without blanks. -/
def Value.render : Value → List Char
  | .null => ['n', 'u', 'l', 'l']
  | .bool true => ['t', 'r', 'u', 'e']
  | .bool false => ['f', 'a', 'l', 's', 'e']
  | .number l => l.text
  | .string s => renderString s
  | .array vs => '[' :: renderElements vs ++ [']']
  | .object ms => '\x7b' :: renderMembers ms ++ ['\x7d']

def renderElements : List Value → List Char
  | [] => []
  | [v] => v.render
  | v :: w :: vs => v.render ++ ',' :: renderElements (w :: vs)

def renderMembers : List (String × Value) → List Char
  | [] => []
  | [m] => renderMember m
  | m :: n :: ms => renderMember m ++ ',' :: renderMembers (n :: ms)

def renderMember : String × Value → List Char
  | (s, v) => renderString s ++ ':' :: v.render

end

theorem renderMember_eq (m : String × Value) :
    renderMember m = renderString m.1 ++ ':' :: m.2.render := by
  obtain ⟨s, v⟩ := m
  rfl

theorem hexDigit_digitChar {n : Nat} (h : n < 16) : hexDigit n.digitChar = some n := by
  interval_cases n <;> rfl

theorem chars_renderChar {cs s : List Char} (c : Char) (h : Chars cs s) :
    Chars (renderChar c ++ cs) (c :: s) := by
  rw [renderChar]
  split
  · next hc =>
    rw [hc]
    exact .escape (by decide) h
  split
  · next hc =>
    rw [hc]
    exact .escape (by decide) h
  split
  · next hc =>
    have hhex : Hex4 ['0', '0', Nat.digitChar (c.toNat / 16), Nat.digitChar (c.toNat % 16)]
        c.toNat := by
      refine ⟨0, 0, c.toNat / 16, c.toNat % 16, ?_, by omega⟩
      simp only [List.map_cons, List.map_nil, hexDigit_digitChar (show c.toNat / 16 < 16 by omega),
        hexDigit_digitChar (Nat.mod_lt c.toNat (by decide : 0 < 16))]
      rfl
    have hchars := Chars.unicode hhex c.valid h
    rwa [Char.ofNat_toNat] at hchars
  · next hquote hback hc => exact .plain hquote hback (by omega) h

theorem chars_render (s : List Char) : Chars (s.flatMap renderChar) s := by
  induction s with
  | nil => exact .nil
  | cons c s ih =>
    rw [List.flatMap_cons]
    exact chars_renderChar c ih

private theorem blank_nil : Blank [] := fun _ hc ↦ absurd hc List.not_mem_nil

mutual

theorem denotes_render : ∀ v : Value, Denotes v.render v
  | .null => .null
  | .bool true => .true
  | .bool false => .false
  | .number l => .number l
  | .string s => by
    have hs := Denotes.string (chars_render s.toList)
    rwa [String.ofList_toList] at hs
  | .array [] => .emptyArray blank_nil
  | .array (v :: vs) => .array (elements_render (v :: vs) (List.cons_ne_nil v vs))
  | .object [] => .emptyObject blank_nil
  | .object (m :: ms) => .object (members_render (m :: ms) (List.cons_ne_nil m ms))

theorem elements_render : ∀ vs : List Value, vs ≠ [] → Elements (renderElements vs) vs
  | [], h => absurd rfl h
  | [v], _ => by
    have hv := Elements.last blank_nil (denotes_render v) blank_nil
    simpa [renderElements] using hv
  | v :: w :: vs, _ => by
    have hrest := elements_render (w :: vs) (List.cons_ne_nil w vs)
    have hv := Elements.cons blank_nil (denotes_render v) blank_nil hrest
    simpa [renderElements] using hv

theorem members_render : ∀ ms : List (String × Value), ms ≠ [] → Members (renderMembers ms) ms
  | [], h => absurd rfl h
  | [m], _ => by
    have hv := Members.last blank_nil (chars_render m.1.toList) blank_nil blank_nil
      (member_render m) blank_nil
    simpa [renderMembers, renderMember_eq, renderString] using hv
  | m :: n :: ms, _ => by
    have hrest := members_render (n :: ms) (List.cons_ne_nil n ms)
    have hv := Members.cons blank_nil (chars_render m.1.toList) blank_nil blank_nil
      (member_render m) blank_nil hrest
    simpa [renderMembers, renderMember_eq, renderString] using hv

theorem member_render : ∀ m : String × Value, Denotes m.2.render m.2
  | (_, v) => denotes_render v

end

/-- Rendering a value gives a text of it. -/
theorem text_render (v : Value) : Text (.ofList v.render) v :=
  ⟨[], v.render, [], blank_nil, denotes_render v, blank_nil, by simp⟩

end JsonText
