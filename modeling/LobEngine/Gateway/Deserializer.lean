import LobEngine.Gateway.Message
import LobEngine.Lib.JsonText

/-!
# Orders read from JSON

`src/serialization/serializer.cpp:54–109`. The parser of `nlohmann::json` is a parameter that
gives the document of a text. A number is stored as a word when it is written as an integer that
fits one, and otherwise rounded to a floating-point number; `get` and `value` convert what is
stored by `static_cast`, and what that does out of range is a parameter too.
-/

namespace LobEngine

open JsonText

/-- The integer types of the fields of a message. -/
inductive IntType where
  | uint64
  | int64
  deriving DecidableEq

namespace IntType

def min : IntType → Int
  | .uint64 => 0
  | .int64 => -2 ^ 63

def max : IntType → Int
  | .uint64 => 2 ^ 64 - 1
  | .int64 => 2 ^ 63 - 1

/-- The conversion between integer types, modulo `2 ^ 64`. -/
def wrap : IntType → Int → Int
  | .uint64, n => n % 2 ^ 64
  | .int64, n => n.bmod (2 ^ 64)

theorem wrap_mem (t : IntType) (n : Int) : t.min ≤ t.wrap n ∧ t.wrap n ≤ t.max := by
  cases t with
  | uint64 =>
    simp only [min, max, wrap]
    omega
  | int64 =>
    have hle := Int.le_bmod (x := n) (m := 2 ^ 64) (by decide)
    have hlt := Int.bmod_lt (x := n) (m := 2 ^ 64) (by decide)
    simp only [min, max, wrap]
    omega

theorem wrap_of_mem {t : IntType} {n : Int} (hmin : t.min ≤ n) (hmax : n ≤ t.max) :
    t.wrap n = n := by
  cases t with
  | uint64 =>
    simp only [min, max] at hmin hmax
    exact Int.emod_eq_of_lt hmin (by omega)
  | int64 =>
    simp only [min, max] at hmin hmax
    exact Int.bmod_eq_of_le (by omega) (by omega)

end IntType

/-- How the parser stores a number. -/
inductive Number where
  | integer (n : Int)
  | float (x : ℚ)

/-- An integer literal is stored in an unsigned or, when it is negative, in a signed word. Any
other literal, or one that does not fit, is rounded. -/
def Number.ofLiteral (round : ℚ → ℚ) (l : Literal) : Number :=
  if l.Integral ∧ (if l.negative then IntType.int64.min ≤ l.intValue
    else l.intValue ≤ IntType.uint64.max) then .integer l.intValue
  else .float (round l.value)

/-- `static_cast` from a stored number. A float is truncated; out of range the language leaves
the result open. -/
def Number.cast (wild : ℚ → Int) (t : IntType) : Number → Int
  | .integer n => t.wrap n
  | .float x =>
    if t.min ≤ x.num.tdiv x.den ∧ x.num.tdiv x.den ≤ t.max then x.num.tdiv x.den
    else t.wrap (wild x)

/-- The member of an object; the last one where a name is repeated. -/
def Document.member (j : Value) (name : String) : Option Value :=
  match j with
  | .object members => members.reverse.lookup name
  | _ => none

/-- `get<T>` for an integer type, which throws on what is no number. -/
def Document.getInt (round : ℚ → ℚ) (wild : ℚ → Int) (t : IntType) : Value → Option Int
  | .number l => some ((Number.ofLiteral round l).cast wild t)
  | _ => none

/-- `get<std::string>`, which throws on what is no string. -/
def Document.getString : Value → Option String
  | .string s => some s
  | _ => none

/-- `j.value(name, T{0})`, which throws if `j` is no object or the member is no number. -/
def Document.valueInt (round : ℚ → ℚ) (wild : ℚ → Int) (t : IntType) (j : Value) (name : String) :
    Option Int :=
  match j with
  | .object _ => (Document.member j name).elim (some 0) (Document.getInt round wild t)
  | _ => none

/-- `parse_side`; `src/serialization/serializer.cpp:54–60`. -/
def Side.parse (s : String) : Option Side :=
  if s = "BUY" then some .buy else if s = "SELL" then some .sell else none

/-- `parse_order_type`; `src/serialization/serializer.cpp:62–74`. -/
def OrderType.parse (s : String) : Option OrderType :=
  if s = "LIMIT" then some .limit
  else if s = "MARKET" then some .market
  else if s = "STOP" then some .stop
  else if s = "STOP_LIMIT" then some .stopLimit
  else if s = "ICEBERG" then some .iceberg
  else none

/-- `parse_action`; `src/serialization/serializer.cpp:76–82`. -/
def OrderAction.parse (s : String) : Option OrderAction :=
  if s = "NEW_ORDER" then some .newOrder
  else if s = "CANCEL_ORDER" then some .cancelOrder
  else none

section

variable (parse : ByteArray → Option Value) (round : ℚ → ℚ) (wild : ℚ → Int)

/-- `deserialize_order`, where `none` stands for `std::nullopt` and for the exceptions that it
catches; `src/serialization/serializer.cpp:88–109`. -/
def deserializeOrder (jsonStr : ByteArray) : Option OrderMessage := do
  let j ← parse jsonStr
  let orderId ← (Document.member j "order_id").bind (Document.getInt round wild .uint64)
  let clientId ← (Document.member j "client_id").bind (Document.getInt round wild .uint64)
  let symbol ← (Document.member j "symbol").bind Document.getString
  let quantity ← (Document.member j "quantity").bind (Document.getInt round wild .uint64)
  let price ← Document.valueInt round wild .int64 j "price"
  let stopPrice ← Document.valueInt round wild .int64 j "stop_price"
  let peakQty ← Document.valueInt round wild .uint64 j "peak_qty"
  let timestamp ← Document.valueInt round wild .uint64 j "timestamp"
  let action ← ((Document.member j "action").bind Document.getString).bind OrderAction.parse
  let side ← ((Document.member j "side").bind Document.getString).bind Side.parse
  let type ← ((Document.member j "type").bind Document.getString).bind OrderType.parse
  return {
    orderId := .ofInt orderId
    clientId := .ofInt clientId
    symbol := symbol
    side := side
    type := type
    quantity := .ofInt quantity
    price := price
    stopPrice := stopPrice
    peakQty := .ofInt peakQty
    timestamp := .ofInt timestamp
    action := action }

end

end LobEngine
