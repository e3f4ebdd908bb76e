import LobEngine.Core.Event
import LobEngine.Lib.Numerals

/-!
# The CSV reader

`src/feed/csv_replay.hpp`, `src/feed/csv_replay.cpp`. A text is a list of characters. The
exceptions of `next` are caught in it, so a line gives an event or the text of its exception.
-/

namespace LobEngine

open Numeral

/-- The pieces that successive calls of `std::getline` return: an empty piece at the end of the
text is none. -/
def getlines (delim : Char) : List Char → List (List Char)
  | [] => []
  | c :: cs =>
    if c = delim then [] :: getlines delim cs
    else
      match getlines delim cs with
      | [] => [[c]]
      | piece :: pieces => (c :: piece) :: pieces

/-- An exception with its text. -/
def orThrow {α : Type} (what : String) : Option α → Except String α
  | some a => .ok a
  | none => .error what

/-- `field.empty() ? 0 : read`. -/
def emptyOr {α : Type} [Zero α] (field : List Char) (read : Except String α) : Except String α :=
  if field.isEmpty then .ok 0 else read

/-- `class CsvReplayReader`; `src/feed/csv_replay.hpp:11–29`. `lines` is what is left of the file,
`cerr` the line numbers and texts of the messages printed. -/
structure CsvReplayReader where
  lines : List (List Char)
  lineNumber : UInt64
  errorCount : UInt64
  cerr : List (UInt64 × String)

namespace CsvReplayReader

/-- `CsvReplayReader::CsvReplayReader`, which skips the header of a file that can be opened;
`src/feed/csv_replay.cpp:8–17`. -/
def init (content : List Char) : CsvReplayReader where
  lines := (getlines '\n' content).tail
  lineNumber := if content.isEmpty then 0 else 1
  errorCount := 0
  cerr := []

/-- `CsvReplayReader::split`; `src/feed/csv_replay.cpp:19–27`. -/
def split (line : List Char) (delim : Char) : List (List Char) := getlines delim line

/-- `CsvReplayReader::parse_side`; `src/feed/csv_replay.cpp:29–35`. -/
def parseSide (s : List Char) : Except String Side :=
  if s = "BUY".toList then .ok .buy
  else if s = "SELL".toList then .ok .sell
  else .error ("Invalid side: " ++ String.ofList s)

/-- `CsvReplayReader::parse_order_type`; `src/feed/csv_replay.cpp:37–49`. -/
def parseOrderType (s : List Char) : Except String OrderType :=
  if s = "LIMIT".toList then .ok .limit
  else if s = "MARKET".toList then .ok .market
  else if s = "STOP".toList then .ok .stop
  else if s = "STOPLIMIT".toList then .ok .stopLimit
  else if s = "ICEBERG".toList then .ok .iceberg
  else .error ("Invalid order type: " ++ String.ofList s)

/-- The body of the `try` block of `next`, where `none` is its `continue`;
`src/feed/csv_replay.cpp:58–102`. -/
def parseFields : List (List Char) → Except String (Option OrderEvent)
  | [] => .ok none
  | eventType :: fields =>
    if eventType = "NEW".toList then
      match fields with
      | id :: side :: type :: price :: quantity :: peakQty :: stopPrice :: timestamp :: _ => do
        let id ← orThrow "stoull" (stoull id)
        let side ← parseSide side
        let type ← parseOrderType type
        let price ← orThrow "stoll" (stoll price)
        let quantity ← orThrow "stoull" (stoull quantity)
        let peakQty ← orThrow "stoull" (stoull peakQty)
        let stopPrice ← orThrow "stoll" (stoll stopPrice)
        let timestamp ← orThrow "stoull" (stoull timestamp)
        return some (.newOrder ⟨{
          id := id, side := side, type := type, price := price, quantity := quantity
          origQty := quantity, peakQty := peakQty, stopPrice := stopPrice
          timestamp := timestamp, status := .new }⟩)
      | _ => .error "Not enough fields for NEW"
    else if eventType = "CANCEL".toList then
      match fields with
      | id :: _ :: _ :: _ :: _ :: _ :: _ :: timestamp :: _ => do
        let id ← orThrow "stoull" (stoull id)
        let timestamp ← orThrow "stoull" (stoull timestamp)
        return some (.cancelOrder ⟨id, timestamp⟩)
      | _ => .error "Not enough fields for CANCEL"
    else if eventType = "MODIFY".toList then
      match fields with
      | id :: _ :: _ :: price :: quantity :: _ :: _ :: timestamp :: _ => do
        let id ← orThrow "stoull" (stoull id)
        let price ← emptyOr price (orThrow "stoll" (stoll price))
        let quantity ← emptyOr quantity (orThrow "stoull" (stoull quantity))
        let timestamp ← orThrow "stoull" (stoull timestamp)
        return some (.modifyOrder ⟨id, price, quantity, timestamp⟩)
      | _ => .error "Not enough fields for MODIFY"
    else .error ("Unknown event type: " ++ String.ofList eventType)

/-- The loop of `next` over the lines that are left; `src/feed/csv_replay.cpp:53–108`. -/
def nextLoop (out : OrderEvent) (number errors : UInt64) (cerr : List (UInt64 × String)) :
    List (List Char) → Bool × OrderEvent × CsvReplayReader
  | [] => (false, out, ⟨[], number, errors, cerr⟩)
  | line :: lines =>
    if line.isEmpty then nextLoop out (number + 1) errors cerr lines
    else
      match parseFields (split line ',') with
      | .ok (some ev) => (true, ev, ⟨lines, number + 1, errors, cerr⟩)
      | .ok none => nextLoop out (number + 1) errors cerr lines
      | .error what =>
        nextLoop out (number + 1) (errors + 1) (cerr ++ [(number + 1, what)]) lines

/-- `CsvReplayReader::next`: what it returns, and `out` and the reader after it;
`src/feed/csv_replay.cpp:51–109`. -/
def next (r : CsvReplayReader) (out : OrderEvent) : Bool × OrderEvent × CsvReplayReader :=
  nextLoop out r.lineNumber r.errorCount r.cerr r.lines

end CsvReplayReader

end LobEngine
