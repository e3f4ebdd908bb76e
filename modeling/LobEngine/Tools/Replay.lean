import LobEngine.Engine.MatchingEngine
import LobEngine.Feed.CsvReplay
import LobEngine.Snapshot.SnapshotManager

/-!
# The replay tool

`src/tools/replay.cpp`. The contents of the files are given by their paths; a file that cannot be
opened has none. A character stands for a byte.
-/

namespace LobEngine

namespace ReplayTool

open Engine Numeral CsvReplayReader

/-- The files that the tool can open. -/
structure Files where
  text : String → Option (List Char)
  bytes : String → Option (List UInt8)

/-- How the tool ends: with an exit code, or by an exception that `main` does not catch. -/
inductive Status where
  | exited (code : Nat)
  | terminated (what : String)
  deriving DecidableEq

/-- The end of the tool, the lines that it printed, and the messages on the error stream. -/
structure Outcome where
  status : Status
  cout : List (List Char) := []
  cerr : List String := []

/-- The paths that `main` collects; `src/tools/replay.cpp:22–24`. -/
structure Paths where
  events : String := ""
  snapshot : String := ""
  expected : String := ""

/-- `trade_to_csv`; `src/tools/replay.cpp:15–18`. -/
def tradeToCsv (t : Trade) : List Char :=
  decimal t.aggressorId.toNat ++ ',' :: (decimal t.passiveId.toNat ++
    ',' :: (signedDecimal t.price ++ ',' :: decimal t.quantity.toNat))

/-- The loop of `main` over its arguments, where `none` asks for the usage;
`src/tools/replay.cpp:26–38`. -/
def parseArgs : List String → Paths → Option Paths
  | [], paths => some paths
  | [_], _ => none
  | arg :: path :: args, paths =>
    if arg = "--events" then parseArgs args { paths with events := path }
    else if arg = "--snapshot" then parseArgs args { paths with snapshot := path }
    else if arg = "--expected" then parseArgs args { paths with expected := path }
    else none

/-- `print_usage` and the exit code that follows; `src/tools/replay.cpp:11–13,34–43`. -/
def printUsage (prog : String) : Outcome where
  status := .exited 1
  cerr := ["Usage: " ++ prog ++ " --events <csv> [--snapshot <bin>] [--expected <csv>]\n"]

/-- The engine with which `main` starts to replay, and the message about the snapshot, or none if
the snapshot cannot be loaded; `src/tools/replay.cpp:45–58`. -/
def loadSnapshot (layout : Layout Order) (files : Files) (path : String) :
    Option (Engine (OrderBook PriceLevel) × List String) :=
  let engine : Engine (OrderBook PriceLevel) := Engine.init
  if path = "" then some (engine, [])
  else
    let loaded := SnapshotManager.load layout (files.bytes path) engine.book [] 0
    if loaded.good then
      some ({ engine with book := loaded.book, pendingStops := loaded.pendingStops },
        ["Loaded snapshot at sequence " ++ toString loaded.sequence ++ "\n"])
    else none

/-- What the loop over the events keeps. -/
structure Progress where
  reader : CsvReplayReader
  event : OrderEvent
  engine : Engine (OrderBook PriceLevel)
  eventCount : UInt64
  tradeLines : List (List Char)

/-- The loop over the events, with `fuel` for every event; `src/tools/replay.cpp:66–72`. `calls`
bounds the calls of `next`, each of which uses up a line or is the last. -/
def replayLoop (fuel : Nat) : Nat → Progress → Except Fault Progress
  | 0, _ => .error .outOfFuel
  | calls + 1, w =>
    match w.reader.next w.event with
    | (false, event, reader) => .ok { w with reader := reader, event := event }
    | (true, event, reader) =>
      match w.engine.submit fuel event with
      | .error f => .error f
      | .ok (engine, result) =>
        replayLoop fuel calls ⟨reader, event, engine, w.eventCount + 1,
          w.tradeLines ++ result.trades.map tradeToCsv⟩

/-- The loop over the lines of the expected file: the number of trades compared, or the message
about the first that differs; `src/tools/replay.cpp:94–111`. -/
def compareLoop (tradeLines : List (List Char)) : Nat → List (List Char) → Except String Nat
  | idx, [] => .ok idx
  | idx, line :: lines =>
    if line.isEmpty then compareLoop tradeLines idx lines
    else
      match tradeLines[idx]? with
      | none => .error ("MISMATCH at trade " ++ toString idx ++
          ": expected more trades, got " ++ toString tradeLines.length ++ "\n")
      | some got =>
        if got = line then compareLoop tradeLines (idx + 1) lines
        else .error ("MISMATCH at trade " ++ toString idx ++ ":\n" ++
          "  expected: " ++ String.ofList line ++ "\n" ++
          "  got:      " ++ String.ofList got ++ "\n")

/-- The comparison with the expected file, if there is one: the messages, or the message with
which it fails; `src/tools/replay.cpp:82–120`. -/
def checkExpected (files : Files) (path : String) (tradeLines : List (List Char)) :
    Except String (List String) :=
  if path = "" then .ok []
  else
    match files.text path with
    | none => .error ("Error: cannot open expected file: " ++ path ++ "\n")
    | some content =>
      match compareLoop tradeLines 0 (getlines '\n' content).tail with
      | .error message => .error message
      | .ok idx =>
        if idx ≠ tradeLines.length then
          .error ("MISMATCH: expected " ++ toString idx ++ " trades, got " ++
            toString tradeLines.length ++ "\n")
        else .ok ["OK: output matches expected (" ++ toString idx ++ " trades)\n"]

/-- What the reader prints about a line that it skips; `src/feed/csv_replay.cpp:102–106`. -/
def skipping (message : UInt64 × String) : String :=
  "CsvReplayReader: line " ++ toString message.1 ++ ": " ++ message.2 ++ " — skipping\n"

/-- `main` from the reader on; `src/tools/replay.cpp:60–121`. -/
def replay (fuel : Nat) (files : Files) (paths : Paths) (engine : Engine (OrderBook PriceLevel))
    (cerr : List String) : Except Fault Outcome :=
  match files.text paths.events with
  | none => .ok { status := .terminated ("CsvReplayReader: cannot open " ++ paths.events)
                  cerr := cerr }
  | some content =>
    let reader := CsvReplayReader.init content
    match replayLoop fuel (reader.lines.length + 1) ⟨reader, .newOrder ⟨{}⟩, engine, 0, []⟩ with
    | .error f => .error f
    | .ok w =>
      let cerr := cerr ++ w.reader.cerr.map skipping ++ ["Replayed " ++ toString w.eventCount ++
        " events, produced " ++ toString w.tradeLines.length ++ " trades\n"]
      match checkExpected files paths.expected w.tradeLines with
      | .error message => .ok ⟨.exited 1, w.tradeLines, cerr ++ [message]⟩
      | .ok messages => .ok ⟨.exited 0, w.tradeLines, cerr ++ messages⟩

/-- `main`, called as `prog`; `src/tools/replay.cpp:20–122`. -/
def main (fuel : Nat) (layout : Layout Order) (files : Files) (prog : String)
    (args : List String) : Except Fault Outcome :=
  match parseArgs args {} with
  | none => .ok (printUsage prog)
  | some paths =>
    if paths.events = "" then .ok (printUsage prog)
    else
      match loadSnapshot layout files paths.snapshot with
      | none => .ok { status := .exited 1
                      cerr := ["Error: failed to load snapshot: " ++ paths.snapshot ++ "\n"] }
      | some (engine, cerr) => replay fuel files paths engine cerr

end ReplayTool

end LobEngine
