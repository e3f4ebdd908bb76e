import LobEngine.Gateway.Deserializer

/-!
# Messages read exactly

Each numeric field of a message is the number it was read from exactly when that number is an
integer in the range of the field and, unless it is written as an integer, a floating-point
number as well.
-/

namespace LobEngine

open JsonText Numeral

/-- The bytes are a JSON text in UTF-8, with or without a byte order mark, and denote the value. -/
def Encodes (bytes : ByteArray) (j : Value) : Prop :=
  ∃ text : String, Text text j ∧ (bytes = text.toUTF8 ∨ bytes = ("\uFEFF" ++ text).toUTF8)

/-! ## One number -/

namespace IntType

/-- The number is an integer in the range of the type. If it is not written as an integer, it is
a floating-point number too. -/
def Fits (round : ℚ → ℚ) (t : IntType) (l : Literal) : Prop :=
  ∃ n : Int, l.value = n ∧ t.min ≤ n ∧ n ≤ t.max ∧ (l.Integral ∨ round n = n)

private theorem cast_mem (wild : ℚ → Int) (t : IntType) (x : Number) :
    t.min ≤ x.cast wild t ∧ x.cast wild t ≤ t.max := by
  cases x with
  | integer n => exact t.wrap_mem n
  | float x =>
    rw [Number.cast]
    split
    · next h => exact h
    · exact t.wrap_mem (wild x)

private theorem cast_float_int (wild : ℚ → Int) (t : IntType) (n : Int) :
    (Number.float n).cast wild t =
      if t.min ≤ n ∧ n ≤ t.max then n else t.wrap (wild n) := by
  rw [Number.cast, Rat.num_intCast, Rat.den_intCast, Nat.cast_one, Int.tdiv_one]

private theorem min_lt_max (t : IntType) : t.min + 1 ≤ t.max := by
  cases t <;> decide

/-- A number that fits is converted to itself, whatever happens out of range. -/
private theorem Fits.cast_eq {round : ℚ → ℚ} {t : IntType} {l : Literal} (h : t.Fits round l)
    (wild : ℚ → Int) : (((Number.ofLiteral round l).cast wild t : Int) : ℚ) = l.value := by
  obtain ⟨n, hn, hmin, hmax, hform⟩ := h
  rw [hn, Int.cast_inj, Number.ofLiteral]
  by_cases hint : l.Integral
  · have hl : l.intValue = n := by
      rw [hint.value_eq] at hn
      exact_mod_cast hn
    have hstored : if l.negative then IntType.int64.min ≤ l.intValue
        else l.intValue ≤ IntType.uint64.max := by
      rw [hl]
      cases t <;> simp only [min, max] at hmin hmax ⊢ <;> split <;> omega
    rw [if_pos ⟨hint, hstored⟩, Number.cast, hl]
    exact wrap_of_mem hmin hmax
  · rw [if_neg fun hc ↦ hint hc.1, hn, hform.resolve_left hint, cast_float_int,
      if_pos ⟨hmin, hmax⟩]

/-- A number that is converted to itself, whatever happens out of range, fits. -/
private theorem fits_of_cast_eq {round : ℚ → ℚ} (hround : ∀ n : Int, ∃ m : Int, round n = m)
    {t : IntType} {l : Literal}
    (h : ∀ wild, (((Number.ofLiteral round l).cast wild t : Int) : ℚ) = l.value) :
    t.Fits round l := by
  obtain ⟨hmin, hmax⟩ := cast_mem (fun _ ↦ 0) t (Number.ofLiteral round l)
  refine ⟨_, (h fun _ ↦ 0).symm, hmin, hmax, ?_⟩
  by_cases hint : l.Integral
  · exact .inl hint
  right
  generalize hn : (Number.ofLiteral round l).cast (fun _ ↦ 0) t = n
  have hvalue : l.value = n := by rw [← hn, h]
  obtain ⟨m, hm⟩ := hround n
  have hcast (wild : ℚ → Int) :
      (if t.min ≤ m ∧ m ≤ t.max then m else t.wrap (wild m)) = n := by
    have hw := h wild
    rw [hvalue, Int.cast_inj, Number.ofLiteral, if_neg fun hc ↦ hint hc.1, hvalue, hm,
      cast_float_int] at hw
    exact hw
  by_cases hin : t.min ≤ m ∧ m ≤ t.max
  · have he := hcast fun _ ↦ 0
    rw [if_pos hin] at he
    rw [hm, he]
  · -- two results out of range cannot both be the number
    have hlt := min_lt_max t
    have h₀ := hcast fun _ ↦ t.min
    have h₁ := hcast fun _ ↦ t.min + 1
    rw [if_neg hin, wrap_of_mem (Int.le_refl _) (by omega)] at h₀
    rw [if_neg hin, wrap_of_mem (by omega) hlt] at h₁
    omega

end IntType

/-! ## The fields of a message -/

/-- A numeric field of `OrderMessage`: the member it is read from, whether that must be there,
and its type. -/
structure NumericField where
  name : String
  required : Bool
  type : IntType
  get : OrderMessage → Int

def numericFields : List NumericField :=
  [⟨"order_id", true, .uint64, fun msg ↦ msg.orderId.toNat⟩,
    ⟨"client_id", true, .uint64, fun msg ↦ msg.clientId.toNat⟩,
    ⟨"quantity", true, .uint64, fun msg ↦ msg.quantity.toNat⟩,
    ⟨"price", false, .int64, fun msg ↦ msg.price⟩,
    ⟨"stop_price", false, .int64, fun msg ↦ msg.stopPrice⟩,
    ⟨"peak_qty", false, .uint64, fun msg ↦ msg.peakQty.toNat⟩,
    ⟨"timestamp", false, .uint64, fun msg ↦ msg.timestamp.toNat⟩]

def requiredMembers : List String :=
  ["order_id", "client_id", "symbol", "quantity", "action", "side", "type"]

namespace NumericField

/-- The member is a number, or it is left out where it may be. -/
def Given (f : NumericField) (j : Value) : Prop :=
  match Document.member j f.name with
  | some v => ∃ l, v = .number l
  | none => f.required = false

/-- The field is the number it is read from, or 0 for a member left out. -/
def Exact (f : NumericField) (j : Value) (msg : OrderMessage) : Prop :=
  match Document.member j f.name with
  | some v => ∃ l, v = .number l ∧ l.value = f.get msg
  | none => f.required = false ∧ f.get msg = 0

/-- What `deserialize_order` reads for the field. -/
def read (round : ℚ → ℚ) (wild : ℚ → Int) (f : NumericField) (j : Value) : Option Int :=
  if f.required then (Document.member j f.name).bind (Document.getInt round wild f.type)
  else Document.valueInt round wild f.type j f.name

end NumericField

/-- The word of a member: it is a string, and `parse` knows it. -/
def Document.Word {α : Type} (parse : String → Option α) (j : Value) (name : String) : Prop :=
  ∃ s a, Document.member j name = some (.string s) ∧ parse s = some a

/-- An object with every required member, each member that is read of the right kind. -/
structure Complete (j : Value) : Prop where
  object : ∃ members, j = .object members
  numeric : ∀ f ∈ numericFields, f.Given j
  symbol : ∃ s, Document.member j "symbol" = some (.string s)
  action : Document.Word OrderAction.parse j "action"
  side : Document.Word Side.parse j "side"
  type : Document.Word OrderType.parse j "type"

section

variable {parse : ByteArray → Option Value} {round : ℚ → ℚ} {wild : ℚ → Int}
  {jsonStr : ByteArray} {msg : OrderMessage} {j : Value} {f : NumericField}

private theorem Document.getInt_eq_some {t : IntType} {v : Value} {n : Int}
    (h : Document.getInt round wild t v = some n) :
    ∃ l, v = .number l ∧ (Number.ofLiteral round l).cast wild t = n := by
  cases v with
  | number l => exact ⟨l, rfl, Option.some.inj h⟩
  | null | bool | string | array | object => cases h

private theorem Document.getString_eq_some {v : Value} {s : String}
    (h : Document.getString v = some s) : v = .string s := by
  cases v with
  | string t => rw [Option.some.inj h]
  | null | bool | number | array | object => cases h

/-- What is read for a field is its number, or 0 where the member is left out. -/
private theorem NumericField.read_eq_some {n : Int} (h : f.read round wild j = some n) :
    (∃ l, Document.member j f.name = some (.number l) ∧
      (Number.ofLiteral round l).cast wild f.type = n) ∨
    Document.member j f.name = none ∧ f.required = false ∧ n = 0 := by
  rw [NumericField.read] at h
  split at h
  · obtain ⟨v, hv, hn⟩ := Option.bind_eq_some_iff.mp h
    obtain ⟨l, rfl, hl⟩ := Document.getInt_eq_some hn
    exact .inl ⟨l, hv, hl⟩
  · next hreq =>
    cases j with
    | null | bool | number | string | array => cases h
    | object members =>
      rw [Document.valueInt] at h
      cases hv : Document.member (.object members) f.name with
      | none =>
        rw [hv, Option.elim_none] at h
        exact .inr ⟨rfl, Bool.eq_false_iff.mpr hreq, (Option.some.inj h).symm⟩
      | some v =>
        rw [hv, Option.elim_some] at h
        obtain ⟨l, rfl, hl⟩ := Document.getInt_eq_some h
        exact .inl ⟨l, rfl, hl⟩

private theorem NumericField.given_of_read {n : Int} (h : f.read round wild j = some n) :
    f.Given j := by
  rw [NumericField.Given]
  rcases NumericField.read_eq_some h with ⟨l, hl, -⟩ | ⟨hnone, hreq, -⟩
  · rw [hl]
    exact ⟨l, rfl⟩
  · rw [hnone]
    exact hreq

private theorem NumericField.read_mem {n : Int} (h : f.read round wild j = some n) :
    f.type.min ≤ n ∧ n ≤ f.type.max := by
  rcases NumericField.read_eq_some h with ⟨l, -, rfl⟩ | ⟨-, -, rfl⟩
  · exact IntType.cast_mem wild f.type _
  · cases f.type <;> decide

private theorem NumericField.exists_read (round : ℚ → ℚ) (wild : ℚ → Int)
    {members : List (String × Value)} (h : f.Given (.object members)) :
    ∃ n, f.read round wild (.object members) = some n := by
  rw [NumericField.Given] at h
  rw [NumericField.read, Document.valueInt]
  cases hv : Document.member (.object members) f.name with
  | none =>
    rw [hv] at h
    exact ⟨0, by rw [if_neg (by simp [h])]; rfl⟩
  | some v =>
    rw [hv] at h
    obtain ⟨l, rfl⟩ := h
    refine ⟨(Number.ofLiteral round l).cast wild f.type, ?_⟩
    split
    · rfl
    · rfl

private theorem toNat_ofInt {n : Int} (h : IntType.uint64.min ≤ n ∧ n ≤ IntType.uint64.max) :
    ((UInt64.ofInt n).toNat : Int) = n := by
  simp only [IntType.min, IntType.max] at h
  rw [UInt64.ofInt, UInt64.toNat_ofNat']
  omega

private theorem Document.word_of_bind {α : Type} {known : String → Option α} {name : String} {a : α}
    (h : ((Document.member j name).bind Document.getString).bind known = some a) :
    Document.Word known j name := by
  obtain ⟨s, hs, ha⟩ := Option.bind_eq_some_iff.mp h
  obtain ⟨v, hv, hstring⟩ := Option.bind_eq_some_iff.mp hs
  rw [Document.getString_eq_some hstring] at hv
  exact ⟨s, a, hv, ha⟩

/-- A message is returned for a complete document, with what is read for each field. -/
private theorem reads_of_deserializeOrder
    (h : deserializeOrder parse round wild jsonStr = some msg) :
    ∃ j, parse jsonStr = some j ∧ Complete j ∧
      ∀ f ∈ numericFields, f.read round wild j = some (f.get msg) := by
  rw [deserializeOrder] at h
  obtain ⟨j, hj, h⟩ := Option.bind_eq_some_iff.mp h
  obtain ⟨orderId, hid, h⟩ := Option.bind_eq_some_iff.mp h
  obtain ⟨clientId, hclient, h⟩ := Option.bind_eq_some_iff.mp h
  obtain ⟨symbol, hsymbol, h⟩ := Option.bind_eq_some_iff.mp h
  obtain ⟨quantity, hquantity, h⟩ := Option.bind_eq_some_iff.mp h
  obtain ⟨price, hprice, h⟩ := Option.bind_eq_some_iff.mp h
  obtain ⟨stopPrice, hstop, h⟩ := Option.bind_eq_some_iff.mp h
  obtain ⟨peakQty, hpeak, h⟩ := Option.bind_eq_some_iff.mp h
  obtain ⟨timestamp, htime, h⟩ := Option.bind_eq_some_iff.mp h
  obtain ⟨action, haction, h⟩ := Option.bind_eq_some_iff.mp h
  obtain ⟨side, hside, h⟩ := Option.bind_eq_some_iff.mp h
  obtain ⟨type, htype, h⟩ := Option.bind_eq_some_iff.mp h
  obtain rfl := Option.some.inj h
  have hreads : ∀ f ∈ numericFields, f.read round wild j = some (f.get
      { orderId := .ofInt orderId, clientId := .ofInt clientId, symbol := symbol, side := side
        type := type, quantity := .ofInt quantity, price := price, stopPrice := stopPrice
        peakQty := .ofInt peakQty, timestamp := .ofInt timestamp, action := action }) := by
    intro f hf
    have hunsigned {g : NumericField} {n : Int} (hg : g.read round wild j = some n)
        (ht : g.type = .uint64) : g.read round wild j = some ((UInt64.ofInt n).toNat : Int) := by
      have hmem := NumericField.read_mem hg
      rw [ht] at hmem
      rw [toNat_ofInt hmem, hg]
    simp only [numericFields, List.mem_cons, List.not_mem_nil, or_false] at hf
    rcases hf with rfl | rfl | rfl | rfl | rfl | rfl | rfl
    · exact hunsigned hid rfl
    · exact hunsigned hclient rfl
    · exact hunsigned hquantity rfl
    · exact hprice
    · exact hstop
    · exact hunsigned hpeak rfl
    · exact hunsigned htime rfl
  refine ⟨j, hj, ⟨?_, fun f hf ↦ NumericField.given_of_read (hreads f hf), ?_,
    Document.word_of_bind haction, Document.word_of_bind hside, Document.word_of_bind htype⟩,
    hreads⟩
  · cases j with
    | null | bool | number | string | array => cases hprice
    | object members => exact ⟨members, rfl⟩
  · obtain ⟨v, hv, hstring⟩ := Option.bind_eq_some_iff.mp hsymbol
    rw [Document.getString_eq_some hstring] at hv
    exact ⟨symbol, hv⟩

theorem Document.Word.bind {α : Type} {known : String → Option α} {name : String}
    (h : Document.Word known j name) :
    ∃ a, ((Document.member j name).bind Document.getString).bind known = some a := by
  obtain ⟨s, a, hs, ha⟩ := h
  exact ⟨a, by rw [hs]; exact ha⟩

/-- A complete document gives a message. -/
private theorem exists_deserializeOrder (round : ℚ → ℚ) (wild : ℚ → Int)
    (hj : parse jsonStr = some j) (hc : Complete j) :
    ∃ msg, deserializeOrder parse round wild jsonStr = some msg := by
  obtain ⟨members, rfl⟩ := hc.object
  have hread (f : NumericField) (hf : f ∈ numericFields) :=
    NumericField.exists_read round wild (hc.numeric f hf)
  simp only [numericFields, List.forall_mem_cons] at hread
  obtain ⟨⟨orderId, hid⟩, ⟨clientId, hclient⟩, ⟨quantity, hquantity⟩, ⟨price, hprice⟩,
    ⟨stopPrice, hstop⟩, ⟨peakQty, hpeak⟩, ⟨timestamp, htime⟩, -⟩ := hread
  obtain ⟨symbol, hsymbol⟩ := hc.symbol
  obtain ⟨action, haction⟩ := hc.action.bind
  obtain ⟨side, hside⟩ := hc.side.bind
  obtain ⟨type, htype⟩ := hc.type.bind
  refine ⟨{ orderId := .ofInt orderId, clientId := .ofInt clientId, symbol := symbol, side := side
            type := type, quantity := .ofInt quantity, price := price, stopPrice := stopPrice
            peakQty := .ofInt peakQty, timestamp := .ofInt timestamp, action := action }, ?_⟩
  refine Option.bind_eq_some_iff.mpr ⟨_, hj, ?_⟩
  refine Option.bind_eq_some_iff.mpr ⟨orderId, hid, ?_⟩
  refine Option.bind_eq_some_iff.mpr ⟨clientId, hclient, ?_⟩
  refine Option.bind_eq_some_iff.mpr ⟨symbol, by rw [hsymbol]; rfl, ?_⟩
  refine Option.bind_eq_some_iff.mpr ⟨quantity, hquantity, ?_⟩
  refine Option.bind_eq_some_iff.mpr ⟨price, hprice, ?_⟩
  refine Option.bind_eq_some_iff.mpr ⟨stopPrice, hstop, ?_⟩
  refine Option.bind_eq_some_iff.mpr ⟨peakQty, hpeak, ?_⟩
  refine Option.bind_eq_some_iff.mpr ⟨timestamp, htime, ?_⟩
  refine Option.bind_eq_some_iff.mpr ⟨action, haction, ?_⟩
  refine Option.bind_eq_some_iff.mpr ⟨side, hside, ?_⟩
  exact Option.bind_eq_some_iff.mpr ⟨type, htype, rfl⟩

end

/-! ## Exact or refused -/

/-- A message is returned only for the text of an object with the required members, and then
every numeric field is exact. -/
def ReadExactly (parse : ByteArray → Option Value) (jsonStr : ByteArray)
    (result : Option OrderMessage) : Prop :=
  ∀ msg, result = some msg → ∃ j, parse jsonStr = some j ∧ Encodes jsonStr j ∧
    (∃ members, j = .object members) ∧
    (∀ name ∈ requiredMembers, (Document.member j name).isSome) ∧
    ∀ f ∈ numericFields, f.Exact j msg

private theorem Complete.required {j : Value} (h : Complete j) :
    ∀ name ∈ requiredMembers, (Document.member j name).isSome := by
  have hnumeric (f : NumericField) (hf : f ∈ numericFields) (hreq : f.required = true) :
      (Document.member j f.name).isSome := by
    have hgiven := h.numeric f hf
    rw [NumericField.Given] at hgiven
    cases hv : Document.member j f.name with
    | none =>
      rw [hv, hreq] at hgiven
      cases hgiven
    | some v => rfl
  have hword {α : Type} {known : String → Option α} {name : String}
      (hw : Document.Word known j name) : (Document.member j name).isSome := by
    obtain ⟨s, a, hs, -⟩ := hw
    rw [hs]
    rfl
  simp only [numericFields, List.forall_mem_cons] at hnumeric
  obtain ⟨hid, hclient, hquantity, -⟩ := hnumeric
  obtain ⟨s, hs⟩ := h.symbol
  simp only [requiredMembers, List.forall_mem_cons, List.not_mem_nil, false_imp_iff, implies_true,
    and_true]
  exact ⟨hid trivial, hclient trivial, by rw [hs]; rfl, hquantity trivial, hword h.action,
    hword h.side, hword h.type⟩

/-- Where the parser accepts only JSON texts, and rounding keeps integers integers, a text is read
exactly or refused, whatever a conversion does out of range, if and only if it is refused or
every number that is read fits its field. -/
theorem deserialize_order_exact_iff (parse : ByteArray → Option Value) (round : ℚ → ℚ)
    (hparse : ∀ bytes j, parse bytes = some j → Encodes bytes j)
    (hround : ∀ n : Int, ∃ m : Int, round n = m) (jsonStr : ByteArray) :
    (∀ wild, ReadExactly parse jsonStr (deserializeOrder parse round wild jsonStr)) ↔
      ∀ j, parse jsonStr = some j → Complete j → ∀ f ∈ numericFields, ∀ l,
        Document.member j f.name = some (.number l) → f.type.Fits round l := by
  constructor
  · intro h j hj hc f hf l hl
    refine IntType.fits_of_cast_eq hround fun wild ↦ ?_
    obtain ⟨msg, hmsg⟩ := exists_deserializeOrder round wild hj hc
    obtain ⟨i, hi, -, -, -, hexact⟩ := h wild msg hmsg
    obtain rfl : j = i := Option.some.inj (hj.symm.trans hi)
    obtain ⟨i, hi, -, hread⟩ := reads_of_deserializeOrder hmsg
    obtain rfl : j = i := Option.some.inj (hj.symm.trans hi)
    have hf' := hexact f hf
    rw [NumericField.Exact, hl] at hf'
    obtain ⟨l', hl', hvalue⟩ := hf'
    obtain rfl : l = l' := by injection hl'
    rcases NumericField.read_eq_some (hread f hf) with ⟨k, hk, hcast⟩ | ⟨hnone, -, -⟩
    · obtain rfl : k = l := by
        rw [hl] at hk
        injection hk with hk
        injection hk with hk
        exact hk.symm
      rw [hcast, hvalue]
    · rw [hl] at hnone
      cases hnone
  · intro h wild msg hmsg
    obtain ⟨j, hj, hc, hread⟩ := reads_of_deserializeOrder hmsg
    refine ⟨j, hj, hparse jsonStr j hj, hc.object, hc.required, fun f hf ↦ ?_⟩
    rw [NumericField.Exact]
    rcases NumericField.read_eq_some (hread f hf) with ⟨l, hl, hcast⟩ | ⟨hnone, hreq, hzero⟩
    · rw [hl]
      refine ⟨l, rfl, ?_⟩
      rw [← hcast, (h j hj hc f hf l hl).cast_eq wild]
    · rw [hnone]
      exact ⟨hreq, hzero⟩

/-! ## Two texts -/

/-- An integer literal. -/
private def literal (negative : Bool) (digits : List Char) (hd : Digits digits)
    (hz : digits.head? = some '0' → digits = ['0']) : Literal :=
  ⟨negative, digits, none, none, hd, hz, fun _ h ↦ absurd h (by simp)⟩

private def orderOf (quantity : Literal) : Value :=
  .object [("order_id", .number (literal false ['1'] (by decide) (by decide))),
    ("client_id", .number (literal false ['7'] (by decide) (by decide))),
    ("symbol", .string "STOCK_1"), ("quantity", .number quantity),
    ("action", .string "NEW_ORDER"), ("side", .string "BUY"), ("type", .string "LIMIT")]

private def five : Literal := literal false ['5'] (by decide) (by decide)

private def minusOne : Literal := literal true ['1'] (by decide) (by decide)

private def textOf (j : Value) : ByteArray := (String.ofList j.render).toUTF8

/-- A parser that knows one text. -/
private def parseOnly (j : Value) (bytes : ByteArray) : Option Value :=
  if bytes.data = (textOf j).data then some j else none

private theorem parseOnly_sound (j : Value) (bytes : ByteArray) (i : Value)
    (h : parseOnly j bytes = some i) : Encodes bytes i := by
  rw [parseOnly] at h
  split at h
  · next hb =>
    obtain rfl := Option.some.inj h
    exact ⟨_, text_render j, .inl (ByteArray.ext hb)⟩
  · cases h

private theorem orderOf_complete (quantity : Literal) : Complete (orderOf quantity) where
  object := ⟨_, rfl⟩
  numeric f hf := by
    simp only [numericFields, List.mem_cons, List.not_mem_nil, or_false] at hf
    rcases hf with rfl | rfl | rfl | rfl | rfl | rfl | rfl
    · exact ⟨_, rfl⟩
    · exact ⟨_, rfl⟩
    · exact ⟨_, rfl⟩
    all_goals exact rfl
  symbol := ⟨_, rfl⟩
  action := ⟨_, _, rfl, rfl⟩
  side := ⟨_, _, rfl, rfl⟩
  type := ⟨_, _, rfl, rfl⟩

private theorem literal_fits {negative : Bool} {digits : List Char} {hd : Digits digits}
    {hz : digits.head? = some '0' → digits = ['0']} {t : IntType}
    (hmin : t.min ≤ (literal negative digits hd hz).intValue)
    (hmax : (literal negative digits hd hz).intValue ≤ t.max) :
    t.Fits id (literal negative digits hd hz) :=
  ⟨_, Literal.Integral.value_eq ⟨rfl, rfl⟩, hmin, hmax, .inl ⟨rfl, rfl⟩⟩

theorem deserialize_order_exact_iff_five : ReadExactly (parseOnly (orderOf five))
    (textOf (orderOf five))
    (deserializeOrder (parseOnly (orderOf five)) id (fun _ ↦ 0) (textOf (orderOf five))) := by
  refine (deserialize_order_exact_iff (parseOnly (orderOf five)) id (parseOnly_sound _)
    (fun n ↦ ⟨n, rfl⟩) (textOf (orderOf five))).mpr ?_ fun _ ↦ 0
  intro j hj _ f hf l hl
  obtain rfl : orderOf five = j := by simpa [parseOnly] using hj
  simp only [numericFields, List.mem_cons, List.not_mem_nil, or_false] at hf
  rcases hf with rfl | rfl | rfl | rfl | rfl | rfl | rfl
  · cases hl
    exact literal_fits (by decide) (by decide)
  · cases hl
    exact literal_fits (by decide) (by decide)
  · cases hl
    exact literal_fits (by decide) (by decide)
  all_goals cases hl

/-- A quantity of -1 is not refused. -/
theorem negative_quantity_read : ¬∀ (parse : ByteArray → Option Value) (round : ℚ → ℚ)
    (wild : ℚ → Int) (jsonStr : ByteArray), (∀ bytes j, parse bytes = some j → Encodes bytes j) →
      (∀ n : Int, ∃ m : Int, round n = m) →
        ReadExactly parse jsonStr (deserializeOrder parse round wild jsonStr) := by
  intro h
  have hj : parseOnly (orderOf minusOne) (textOf (orderOf minusOne)) = some (orderOf minusOne) :=
    if_pos rfl
  obtain ⟨msg, hmsg⟩ := exists_deserializeOrder id (fun _ ↦ 0) hj (orderOf_complete minusOne)
  obtain ⟨j, hj', -, -, -, hexact⟩ :=
    h _ id (fun _ ↦ 0) _ (parseOnly_sound _) (fun n ↦ ⟨n, rfl⟩) msg hmsg
  obtain rfl : orderOf minusOne = j := Option.some.inj (hj.symm.trans hj')
  simp only [numericFields, List.forall_mem_cons] at hexact
  obtain ⟨l, hl, hvalue⟩ := hexact.2.2.1
  obtain rfl : minusOne = l := by injection hl
  have hneg : minusOne.value = ((-1 : Int) : ℚ) := Literal.Integral.value_eq ⟨rfl, rfl⟩
  rw [hneg, Int.cast_inj] at hvalue
  simp only at hvalue
  omega

end LobEngine
