import LobEngine.Properties.Checkpoint
import LobEngine.Properties.DocumentedCsv
import LobEngine.Tools.Replay

/-!
# What the replay tool vouches for

The tool gives the events of the accepted lines to the engine, one after the other, and prints the
trades. It exits with 0 exactly if the lines of the expected file are those trades. A replay from a
snapshot prints what a replay of the whole file prints from there on.
-/

namespace LobEngine

open BookOps Engine Numeral CsvReplayReader

/-! ### The lines of a trade -/

private theorem getlines_append {delim : Char} {piece : List Char} (h : delim ∉ piece)
    (rest : List Char) :
    getlines delim (piece ++ delim :: rest) = piece :: getlines delim rest := by
  induction piece with
  | nil => exact if_pos rfl
  | cons c piece ih =>
    rw [List.mem_cons, not_or] at h
    rw [List.cons_append, getlines, if_neg fun he ↦ h.1 he.symm, ih h.2]

private theorem getlines_single {delim : Char} {piece : List Char} (h : delim ∉ piece)
    (hne : piece ≠ []) : getlines delim piece = [piece] := by
  induction piece with
  | nil => exact absurd rfl hne
  | cons c piece ih =>
    rw [List.mem_cons, not_or] at h
    rw [getlines, if_neg fun he ↦ h.1 he.symm]
    cases piece with
    | nil => rfl
    | cons d piece => rw [ih h.2 (List.cons_ne_nil d piece)]

namespace ReplayTool

private theorem split_tradeToCsv (t : Trade) : split (tradeToCsv t) ',' =
    [decimal t.aggressorId.toNat, decimal t.passiveId.toNat, signedDecimal t.price,
      decimal t.quantity.toNat] := by
  have hcomma (n : Nat) : ',' ∉ decimal n := not_mem_decimal (by decide) n
  rw [tradeToCsv, split, getlines_append (hcomma _), getlines_append (hcomma _),
    getlines_append (not_mem_signedDecimal (by decide) (by decide) _),
    getlines_single (hcomma _) (digits_decimal _).1]

/-- The reader's `split` and the conversions of the columns read a line back. -/
theorem trade_line_read_back {t : Trade} (hmin : -2 ^ 63 ≤ t.price) (hmax : t.price < 2 ^ 63) :
    ∃ aggressor passive price quantity,
      split (tradeToCsv t) ',' = [aggressor, passive, price, quantity] ∧
      stoull aggressor = some t.aggressorId ∧ stoull passive = some t.passiveId ∧
      stoll price = some t.price ∧ stoull quantity = some t.quantity :=
  ⟨_, _, _, _, split_tradeToCsv t, stoull_decimal _, stoull_decimal _,
    stoll_signedDecimal hmin hmax, stoull_decimal _⟩

theorem trade_line_read_back_negative : ∃ aggressor passive price quantity,
    split "7,3,-25,10".toList ',' = [aggressor, passive, price, quantity] ∧
      stoull aggressor = some 7 ∧ stoull passive = some 3 ∧ stoll price = some (-25) ∧
      stoull quantity = some 10 := by
  have hline : "7,3,-25,10".toList = tradeToCsv
      { aggressorId := 7, passiveId := 3, price := -25, quantity := 10 } := by decide
  rw [hline]
  exact trade_line_read_back (by decide) (by decide)

private theorem tradeToCsv_ne_nil (t : Trade) : tradeToCsv t ≠ [] := by
  rw [tradeToCsv]
  exact List.append_ne_nil_of_right_ne_nil _ (List.cons_ne_nil _ _)

private theorem not_mem_tradeToCsv {c : Char} (hc : c.isDigit = false) (hsign : c ≠ '-')
    (hcomma : c ≠ ',') (t : Trade) : c ∉ tradeToCsv t := by
  simp only [tradeToCsv, List.mem_append, List.mem_cons, not_or]
  exact ⟨not_mem_decimal hc _, hcomma, not_mem_decimal hc _, hcomma,
    not_mem_signedDecimal hc hsign _, hcomma, not_mem_decimal hc _⟩

/-! ### The events of a file -/

/-- The event of a line, if the reader accepts it. -/
def eventOf (line : List Char) : Option OrderEvent :=
  match parseFields (split line ',') with
  | .ok ev => ev
  | .error _ => none

/-- The events of the accepted lines. -/
def eventsOf (lines : List (List Char)) : List OrderEvent := lines.filterMap eventOf

private theorem eventOf_eq_some_iff {line : List Char} {ev : OrderEvent} :
    eventOf line = some ev ↔ Accepts line ev := by
  rw [eventOf, Accepts]
  cases parseFields (split line ',') with
  | ok found => simp
  | error what => simp

private theorem eventOf_eq_none {line : List Char} (h : ∀ ev, ¬Accepts line ev) :
    eventOf line = none :=
  Option.eq_none_iff_forall_ne_some.mpr fun ev he ↦ h ev (eventOf_eq_some_iff.mp he)

/-- A call of `next` takes the first event of the lines that are left. -/
private theorem eventsOf_call {lines rest : List (List Char)} {ev : Option OrderEvent} {n : Nat}
    (h : Call Accepts lines ev rest n) : eventsOf lines = ev.toList ++ eventsOf rest := by
  induction h with
  | stop => rfl
  | empty _ ih => exact ih
  | event ha =>
    rw [eventsOf, List.filterMap_cons_some (eventOf_eq_some_iff.mpr ha)]
    rfl
  | error _ hno _ ih =>
    rw [eventsOf, List.filterMap_cons_none (eventOf_eq_none hno)]
    exact ih

/-- What `main` prints for the results of the engine. -/
def tradeLines (rs : List MatchResult) : List (List Char) :=
  (rs.flatMap MatchResult.trades).map tradeToCsv

/-- The loop over the events plays them. -/
private theorem replayLoop_play (fuel : Nat) {calls : Nat} {w : Progress}
    (h : w.reader.lines.length < calls) :
    (replayLoop fuel calls w).toOption.map (fun w' ↦ (w'.engine, w'.tradeLines)) =
      (play (fun _ _ ↦ true) fuel (eventsOf w.reader.lines) w.engine).map
        fun out ↦ (out.1, w.tradeLines ++ tradeLines out.2) := by
  induction calls generalizing w with
  | zero => exact absurd h (Nat.not_lt_zero _)
  | succ calls ih =>
    obtain ⟨ev, rest, n, hcall, hfound, hout, hlines, -⟩ := follows_accepts w.reader w.event
    have hevents := eventsOf_call hcall
    rw [replayLoop]
    generalize w.reader.next w.event = out at hfound hout hlines
    obtain ⟨found, event, reader⟩ := out
    subst hfound hout hlines
    cases ev with
    | none =>
      rw [hevents, hcall.rest_eq_nil rfl]
      simp [Except.toOption, play, eventsOf, tradeLines]
    | some ev =>
      have hlt := hcall.length_lt rfl
      simp only [Option.isSome_some, Option.getD_some, hevents, Option.toList_some,
        List.singleton_append, play]
      cases w.engine.submit fuel ev with
      | error f => rfl
      | ok out =>
        obtain ⟨engine, result⟩ := out
        simp only [if_true]
        rw [ih (Nat.lt_of_lt_of_le hlt (Nat.le_of_lt_succ h)), Option.map_map]
        congr 1
        funext out
        simp [tradeLines]

/-! ### The expected file -/

/-- The lines of a text behind its header that are not empty. -/
def body (content : List Char) : List (List Char) :=
  (getlines '\n' content).tail.filter (!·.isEmpty)

/-- The comparison goes through as long as the lines are the next trades. -/
private theorem compareLoop_eq_ok_iff {lines : List (List Char)} {expected : List (List Char)}
    {idx m : Nat} : compareLoop lines idx expected = .ok m ↔
      expected.filter (!·.isEmpty) <+: lines.drop idx ∧
        m = idx + (expected.filter (!·.isEmpty)).length := by
  induction expected generalizing idx with
  | nil => simp [compareLoop, eq_comm]
  | cons line expected ih =>
    rw [compareLoop]
    by_cases hempty : line.isEmpty = true
    · rw [if_pos hempty, ih, List.filter_cons_of_neg (by simp [hempty])]
    · rw [if_neg hempty, List.filter_cons_of_pos (by simp [hempty])]
      cases hgot : lines[idx]? with
      | none =>
        have hdrop : lines.drop idx = [] :=
          List.drop_eq_nil_of_le (List.getElem?_eq_none_iff.mp hgot)
        simp [hdrop]
      | some got =>
        obtain ⟨hlt, hget⟩ := List.getElem?_eq_some_iff.mp hgot
        rw [List.drop_eq_getElem_cons hlt, hget]
        by_cases hsame : got = line
        · subst hsame
          simp only [if_true, ih, List.cons_prefix_cons, true_and, List.length_cons]
          rw [Nat.add_assoc, Nat.add_comm 1]
        · simp [hsame, List.cons_prefix_cons, Ne.symm hsame]

/-- There is no expected file, or its lines are the given ones. -/
def Expects (files : Files) (path : String) (lines : List (List Char)) : Prop :=
  path = "" ∨ ∃ content, files.text path = some content ∧ body content = lines

private theorem checkExpected_ok_iff (files : Files) (path : String) (lines : List (List Char)) :
    (∃ messages, checkExpected files path lines = .ok messages) ↔ Expects files path lines := by
  rw [checkExpected, Expects]
  by_cases hpath : path = ""
  · simp [hpath]
  rw [if_neg hpath, or_iff_right hpath]
  cases htext : files.text path with
  | none => simp
  | some content =>
    simp only [Option.some.injEq, exists_eq_left']
    cases hcompare : compareLoop lines 0 (getlines '\n' content).tail with
    | error message =>
      simp only [reduceCtorEq, exists_false, false_iff]
      rintro rfl
      have hok : compareLoop (body content) 0 (getlines '\n' content).tail =
          .ok (0 + (body content).length) := compareLoop_eq_ok_iff.mpr ⟨List.prefix_rfl, rfl⟩
      rw [hcompare] at hok
      cases hok
    | ok idx =>
      obtain ⟨hfront, hidx⟩ := compareLoop_eq_ok_iff.mp hcompare
      rw [Nat.zero_add] at hidx
      simp only
      split
      · next hne =>
        simp only [reduceCtorEq, exists_false, false_iff]
        rintro rfl
        exact hne hidx
      · next heq =>
        have hbody : body content = lines := hfront.eq_of_length (hidx.symm.trans (not_not.mp heq))
        simp [hbody]

/-! ### The tool -/

variable {fuel : Nat} {layout : Layout Order} {files : Files} {prog : String} {args : List String}
  {paths : Paths} {s s' : Engine (OrderBook PriceLevel)} {content : List Char} {out : Outcome}
  {rs : List MatchResult}

/-- The arguments and the files take the tool to its loop over the events, with the engine `s` and
the events file `content`. -/
structure Starts (layout : Layout Order) (files : Files) (args : List String) (paths : Paths)
    (s : Engine (OrderBook PriceLevel)) (content : List Char) : Prop where
  parsed : parseArgs args {} = some paths
  given : paths.events ≠ ""
  loaded : ∃ cerr, loadSnapshot layout files paths.snapshot = some (s, cerr)
  opened : files.text paths.events = some content

/-- The events that the tool gives to the engine. -/
def replayed (content : List Char) : List OrderEvent :=
  eventsOf (CsvReplayReader.init content).lines

/-- The tool is through with the events: it prints the trades of the results and exits with 0 if
the expected file has them. -/
structure Prints (files : Files) (paths : Paths) (rs : List MatchResult) (out : Outcome) : Prop
    where
  cout : out.cout = tradeLines rs
  status : out.status = .exited 0 ↔ Expects files paths.expected (tradeLines rs)

private theorem replay_prints (cerr : List String) (ht : files.text paths.events = some content) :
    (∀ out, replay fuel files paths s cerr = .ok out →
      ∃ s' rs, play (fun _ _ ↦ true) fuel (replayed content) s = some (s', rs) ∧
        Prints files paths rs out) ∧
    ∀ s' rs, play (fun _ _ ↦ true) fuel (replayed content) s = some (s', rs) →
      ∃ out, replay fuel files paths s cerr = .ok out ∧ Prints files paths rs out := by
  have hplay := replayLoop_play fuel (w := ⟨.init content, .newOrder ⟨{}⟩, s, 0, []⟩)
    (Nat.lt_succ_self _)
  simp only [List.nil_append] at hplay
  cases hloop : replayLoop fuel ((CsvReplayReader.init content).lines.length + 1)
      ⟨.init content, .newOrder ⟨{}⟩, s, 0, []⟩ with
  | error f =>
    have hfails : replay fuel files paths s cerr = .error f := by
      simp only [replay, ht, hloop]
    rw [hloop] at hplay
    have hnone := Option.map_eq_none_iff.mp hplay.symm
    rw [hfails]
    refine ⟨fun out hout ↦ (nomatch hout), fun s' rs hp ↦ ?_⟩
    exact absurd (hnone.symm.trans hp) (by simp)
  | ok w =>
    rw [hloop] at hplay
    obtain ⟨⟨s', rs⟩, hp, heq⟩ := Option.map_eq_some_iff.mp hplay.symm
    obtain ⟨-, hlines⟩ := Prod.mk.inj heq
    have hdone : ∃ out, replay fuel files paths s cerr = .ok out ∧ Prints files paths rs out := by
      have hexpects := checkExpected_ok_iff files paths.expected (tradeLines rs)
      simp only [replay, ht, hloop, ← hlines]
      cases hcheck : checkExpected files paths.expected (tradeLines rs) with
      | error message =>
        refine ⟨_, rfl, rfl, ?_⟩
        rw [← hexpects, hcheck]
        simp
      | ok messages => exact ⟨_, rfl, rfl, iff_of_true rfl (hexpects.mp ⟨messages, hcheck⟩)⟩
    obtain ⟨out, hout, hprints⟩ := hdone
    constructor
    · intro out' hout'
      obtain rfl := Except.ok.inj (hout.symm.trans hout')
      exact ⟨s', rs, hp, hprints⟩
    · intro s'' rs' hp'
      obtain ⟨rfl, rfl⟩ := Prod.mk.inj (Option.some.inj (hp.symm.trans hp'))
      exact ⟨out, hout, hprints⟩

private theorem main_of_starts (fuel : Nat) (prog : String)
    (h : Starts layout files args paths s content) :
    ∃ cerr, main fuel layout files prog args = replay fuel files paths s cerr := by
  obtain ⟨cerr, hloaded⟩ := h.loaded
  exact ⟨cerr, by simp only [main, h.parsed, h.given, if_false, hloaded]⟩

/-- A tool that ends has started, or it has printed no line and does not exit with 0. -/
private theorem starts_of_main (h : main fuel layout files prog args = .ok out) :
    (∃ paths s content, Starts layout files args paths s content) ∨
      out.cout = [] ∧ out.status ≠ .exited 0 := by
  have hfails {o : Outcome} (ho : o = out) (hcout : o.cout = []) (hne : o.status ≠ .exited 0) :
      out.cout = [] ∧ out.status ≠ .exited 0 := ho ▸ ⟨hcout, hne⟩
  rw [main] at h
  split at h
  · exact .inr (hfails (Except.ok.inj h) rfl (by simp [printUsage]))
  · next paths hparsed =>
    split at h
    · exact .inr (hfails (Except.ok.inj h) rfl (by simp [printUsage]))
    · next hgiven =>
      split at h
      · exact .inr (hfails (Except.ok.inj h) rfl (by simp))
      · next s cerr hloaded =>
        cases hopened : files.text paths.events with
        | none =>
          rw [replay, hopened] at h
          exact .inr (hfails (Except.ok.inj h) rfl (by simp))
        | some content => exact .inl ⟨paths, s, content, hparsed, hgiven, ⟨cerr, hloaded⟩, hopened⟩

/-- The tool exits with 0 exactly if its arguments are in order, its files can be read, the engine
accepts the events of the accepted lines, and the expected file, if there is one, has the trades of
these events, line by line behind its header. These are the lines that it prints. -/
theorem exits_zero_iff (h : main fuel layout files prog args = .ok out) :
    out.status = .exited 0 ↔ ∃ paths s content s' rs, Starts layout files args paths s content ∧
      Continues Anything s (replayed content) s' rs ∧ out.cout = tradeLines rs ∧
      Expects files paths.expected out.cout := by
  constructor
  · intro hzero
    rcases starts_of_main h with ⟨paths, s, content, hs⟩ | ⟨-, hne⟩
    · obtain ⟨cerr, hmain⟩ := main_of_starts fuel prog hs
      obtain ⟨s', rs, hp, hprints⟩ := (replay_prints cerr hs.opened).1 out (hmain.symm.trans h)
      refine ⟨paths, s, content, s', rs, hs, .of_play (fun _ _ _ ↦ trivial) hp, hprints.cout, ?_⟩
      rw [hprints.cout]
      exact hprints.status.mp hzero
    · exact absurd hzero hne
  · rintro ⟨paths, s, content, s', rs, hs, -, hcout, hexpects⟩
    obtain ⟨cerr, hmain⟩ := main_of_starts fuel prog hs
    obtain ⟨s'', rs', -, hprints⟩ := (replay_prints cerr hs.opened).1 out (hmain.symm.trans h)
    apply hprints.status.mpr
    rw [← hprints.cout]
    exact hexpects

/-- The lines as `main` prints them. -/
def text (lines : List (List Char)) : List Char := lines.flatMap (· ++ ['\n'])

private def eventsHeader : List Char :=
  "event_type,order_id,side,order_type,price,quantity,peak_qty,stop_price,timestamp".toList

/-- `tests/replay/data/stop_trigger.csv`, up to the stop that waits. -/
private def untilStop : List (List Char) :=
  ["NEW,1,SELL,LIMIT,10050,100,0,0,1700000000000000000",
    "NEW,2,BUY,LIMIT,10040,100,0,0,1700000000000001000",
    "NEW,3,SELL,LIMIT,10060,50,0,0,1700000000000002000",
    "NEW,4,BUY,LIMIT,10050,50,0,0,1700000000000003000",
    "NEW,5,BUY,LIMIT,10040,50,0,0,1700000000000004000",
    "NEW,100,BUY,STOP,0,30,0,10050,1700000000000005000",
    "NEW,101,SELL,STOP,0,20,0,10040,1700000000000006000"].map String.toList

/-- The other lines of the file, in which the stop is triggered. -/
private def fromStop : List (List Char) :=
  ["NEW,6,SELL,LIMIT,10040,80,0,0,1700000000000007000",
    "NEW,7,SELL,LIMIT,10050,50,0,0,1700000000000008000",
    "NEW,8,BUY,LIMIT,10060,100,0,0,1700000000000009000"].map String.toList

/-- `tests/replay/data/stop_trigger_expected.csv`. -/
private def expectedTrades : List (List Char) :=
  ["4,1,10050,50", "100,1,10050,30", "6,2,10040,80",
    "101,2,10040,20", "8,1,10050,20", "8,7,10050,50", "8,3,10060,30"].map String.toList

private def expectedHeader : List Char := "aggressor_id,passive_id,price,quantity".toList

private def stopTrigger (snapshot : List UInt8) : Files where
  text path :=
    if path = "events" then some (text (eventsHeader :: (untilStop ++ fromStop)))
    else if path = "rest" then some (text (eventsHeader :: fromStop))
    else if path = "expected" then some (expectedHeader ++ '\n' :: text expectedTrades)
    else none
  bytes path := if path = "snapshot" then some snapshot else none

/-- The tool passes this test of the repository. -/
theorem exits_zero_iff_stop_trigger : ∃ out : Outcome, out.cout = expectedTrades ∧
    ∃ paths s content s' rs, Starts Order.layout (stopTrigger [])
      ["--events", "events", "--expected", "expected"] paths s content ∧
    Continues Anything s (replayed content) s' rs ∧ out.cout = tradeLines rs ∧
    Expects (stopTrigger []) paths.expected out.cout := by
  obtain ⟨out, hout, hzero, hcout⟩ : ∃ out ∈ (main 50 Order.layout (stopTrigger []) "lob_replay"
      ["--events", "events", "--expected", "expected"]).toOption,
      out.status = .exited 0 ∧ out.cout = expectedTrades := by
    decide +kernel
  exact ⟨out, hcout, (exits_zero_iff (eq_ok_of_toOption hout)).mp hzero⟩

/-! ### A recorded output as the expected file -/

private theorem body_text {header : List Char} (hheader : '\n' ∉ header) {lines : List (List Char)}
    (h : ∀ line ∈ lines, '\n' ∉ line ∧ line ≠ []) :
    body (header ++ '\n' :: text lines) = lines := by
  rw [body, getlines_append hheader, List.tail_cons]
  induction lines with
  | nil => rfl
  | cons line lines ih =>
    obtain ⟨hnewline, hne⟩ := h line List.mem_cons_self
    have htext : text (line :: lines) = line ++ '\n' :: text lines := by
      rw [text, List.flatMap_cons, List.append_assoc]
      rfl
    rw [htext, getlines_append hnewline, List.filter_cons_of_pos (by simpa using hne),
      ih fun l hl ↦ h l (List.mem_cons_of_mem _ hl)]

private theorem parseArgs_expected (path : String) (h : parseArgs args {} = some paths) :
    parseArgs (args ++ ["--expected", path]) {} = some { paths with expected := path } := by
  generalize ({} : Paths) = start at h ⊢
  induction args, start using parseArgs.induct with
  | case1 start =>
    obtain rfl := Option.some.inj h
    rfl
  | case2 arg start => exact absurd h (by simp [parseArgs])
  | case3 file args start ih =>
    rw [parseArgs, if_pos rfl] at h
    rw [List.cons_append, List.cons_append, parseArgs, if_pos rfl]
    exact ih h
  | case4 file args start hne ih =>
    rw [parseArgs, if_neg hne, if_pos rfl] at h
    rw [List.cons_append, List.cons_append, parseArgs, if_neg hne, if_pos rfl]
    exact ih h
  | case5 file args start hne hne' ih =>
    rw [parseArgs, if_neg hne, if_neg hne', if_pos rfl] at h
    rw [List.cons_append, List.cons_append, parseArgs, if_neg hne, if_neg hne', if_pos rfl]
    exact ih h
  | case6 arg file args start hne hne' hne'' =>
    rw [parseArgs, if_neg hne, if_neg hne', if_neg hne''] at h
    exact absurd h (by simp)

/-- What the tool has printed can be recorded under any header: the same replay, compared with the
record, prints the same lines and exits with 0. -/
theorem golden_file (h : main fuel layout files prog args = .ok out)
    (hzero : out.status = .exited 0) {path : String} {header : List Char}
    (hheader : '\n' ∉ header) (hfile : files.text path = some (header ++ '\n' :: text out.cout)) :
    ∃ out', main fuel layout files prog (args ++ ["--expected", path]) = .ok out' ∧
      out'.status = .exited 0 ∧ out'.cout = out.cout := by
  rcases starts_of_main h with ⟨paths, s, content, hs⟩ | ⟨-, hne⟩
  · obtain ⟨cerr, hmain⟩ := main_of_starts fuel prog hs
    obtain ⟨s', rs, hp, hprints⟩ := (replay_prints cerr hs.opened).1 out (hmain.symm.trans h)
    have hs' : Starts layout files (args ++ ["--expected", path])
        { paths with expected := path } s content :=
      ⟨parseArgs_expected path hs.parsed, hs.given, hs.loaded, hs.opened⟩
    obtain ⟨cerr', hmain'⟩ := main_of_starts fuel prog hs'
    obtain ⟨out', hout', hprints'⟩ := (replay_prints cerr' hs'.opened).2 s' rs hp
    refine ⟨out', hmain'.trans hout', hprints'.status.mpr (.inr ⟨_, hfile, ?_⟩),
      hprints'.cout.trans hprints.cout.symm⟩
    rw [hprints.cout]
    apply body_text hheader
    intro line hline
    obtain ⟨t, -, rfl⟩ := List.mem_map.mp hline
    exact ⟨not_mem_tradeToCsv (by decide) (by decide) (by decide) t, tradeToCsv_ne_nil t⟩
  · exact absurd hzero hne

theorem golden_file_stop_trigger : ∃ out', main 50 Order.layout (stopTrigger []) "lob_replay"
    ["--events", "events", "--expected", "expected"] = .ok out' ∧ out'.status = .exited 0 ∧
    out'.cout = expectedTrades := by
  obtain ⟨out, hout, hzero, hcout⟩ : ∃ out ∈ (main 50 Order.layout (stopTrigger []) "lob_replay"
      ["--events", "events"]).toOption, out.status = .exited 0 ∧ out.cout = expectedTrades := by
    decide +kernel
  have hfile : (stopTrigger []).text "expected" =
      some (expectedHeader ++ '\n' :: text out.cout) := by
    rw [hcout]
    rfl
  obtain ⟨out', hmain, hzero', hsame⟩ :=
    golden_file (eq_ok_of_toOption hout) hzero (by decide) hfile
  exact ⟨out', hmain, hzero', hsame.trans hcout⟩

/-! ### A replay from a snapshot -/

private theorem loadSnapshot_resume {path : String} (hpath : path ≠ "")
    (h : SnapshotManager.resume layout (files.bytes path) = some s) :
    ∃ cerr, loadSnapshot layout files path = some (s, cerr) := by
  rw [SnapshotManager.resume] at h
  rw [loadSnapshot, if_neg hpath]
  simp only at h ⊢
  split at h
  · next hgood =>
    obtain rfl := Option.some.inj h
    exact ⟨_, if_pos hgood⟩
  · exact absurd h (by simp)

/-- Let `s₁` be the state behind the first lines of an events file, and let a snapshot file hold
what `save` writes of it. Then the tool replays the other lines from the snapshot: it prints what
it prints for these lines when it replays the whole file. -/
theorem replay_resumes (prog : String) {whole rest snap : String} {content content' : List Char}
    {lines : List (List Char)} {s₁ s₂ : Engine (OrderBook PriceLevel)} {rs₁ : List MatchResult}
    (hwhole : whole ≠ "") (hrest : rest ≠ "") (hsnap : snap ≠ "")
    (htext : files.text whole = some content) (htext' : files.text rest = some content')
    (hlines : (CsvReplayReader.init content).lines =
      lines ++ (CsvReplayReader.init content').lines)
    (h₁ : Run KeepsPlace (eventsOf lines) s₁ rs₁) (h : Run KeepsPlace (replayed content) s₂ rs)
    (hf : Fresh (replayed content)) (hb : s₁.book.orderCount < 2 ^ 32)
    (hstops : s₁.pendingStops.length < 2 ^ 32)
    (hr : SnapshotManager.Restores layout s₁.book s₁.pendingStops)
    (hbytes : files.bytes snap =
      some (SnapshotManager.save layout s₁.book s₁.pendingStops s₁.sequence)) :
    ∃ N, ∀ fuel, N < fuel → ∃ out out',
      main fuel layout files prog ["--events", whole] = .ok out ∧
      main fuel layout files prog ["--events", rest, "--snapshot", snap] = .ok out' ∧
      out.status = .exited 0 ∧ out'.status = .exited 0 ∧
      out.cout = tradeLines rs₁ ++ out'.cout := by
  have hsplit : replayed content = eventsOf lines ++ replayed content' := by
    rw [replayed, hlines]
    exact List.filterMap_append
  rw [hsplit] at h hf
  obtain ⟨t, -, href⟩ := h₁.refines (E := fun _ ↦ True) (fun _ ↦ .of_keepsPlace)
    (fun _ ↦ trivial) hf.left
  obtain ⟨u, hu, hstands⟩ := href.resume hb hstops hr
  obtain ⟨s, rs₁', rs₂, hrun, hcont, rfl⟩ := h.split
  obtain ⟨rfl, rfl⟩ := hrun.unique h₁
  obtain ⟨u', hu', -⟩ := hstands.continues hf hcont
  obtain ⟨N, hN⟩ := (Continues.of_run h).eventually
  obtain ⟨M, hM⟩ := hu'.eventually
  rw [← hbytes] at hu
  have hs : Starts layout files ["--events", whole] { events := whole } .init content :=
    ⟨rfl, hwhole, ⟨[], rfl⟩, htext⟩
  have hs' : Starts layout files ["--events", rest, "--snapshot", snap]
      { events := rest, snapshot := snap } u content' :=
    ⟨rfl, hrest, loadSnapshot_resume hsnap hu, htext'⟩
  refine ⟨max N M, fun fuel hfuel ↦ ?_⟩
  obtain ⟨cerr, hmain⟩ := main_of_starts fuel prog hs
  obtain ⟨cerr', hmain'⟩ := main_of_starts fuel prog hs'
  have hplay := hN fuel (lt_of_le_of_lt (Nat.le_max_left N M) hfuel)
  rw [← hsplit] at hplay
  obtain ⟨out, hout, hprints⟩ := (replay_prints cerr hs.opened).2 _ _ hplay
  obtain ⟨out', hout', hprints'⟩ := (replay_prints cerr' hs'.opened).2 _ _
    (hM fuel (lt_of_le_of_lt (Nat.le_max_right N M) hfuel))
  refine ⟨out, out', hmain.trans hout, hmain'.trans hout', hprints.status.mpr (.inl rfl),
    hprints'.status.mpr (.inl rfl), ?_⟩
  rw [hprints.cout, hprints'.cout, tradeLines, tradeLines, tradeLines, List.flatMap_append,
    List.map_append]

/-- The snapshot is taken while the stop waits. -/
theorem replay_resumes_stop_trigger : ∃ (snapshot : List UInt8) (fuel : Nat) (out out' : Outcome),
    main fuel Order.layout (stopTrigger snapshot) "lob_replay" ["--events", "events"] = .ok out ∧
    main fuel Order.layout (stopTrigger snapshot) "lob_replay"
      ["--events", "rest", "--snapshot", "snapshot"] = .ok out' ∧
    out.cout = expectedTrades.take 2 ++ out'.cout := by
  obtain ⟨s₁, rs₁, h₁, hprinted, hb, hstops, hr⟩ := Run.exists_of_play (B := OrderBook PriceLevel)
    KeepsPlace 50 (eventsOf untilStop) (fun s rs ↦ tradeLines rs = expectedTrades.take 2 ∧
      s.book.orderCount < 2 ^ 32 ∧ s.pendingStops.length < 2 ^ 32 ∧
      SnapshotManager.Restores Order.layout s.book s.pendingStops) (by decide +kernel)
  obtain ⟨s₂, rs, h, -⟩ := Run.exists_of_play (B := OrderBook PriceLevel) KeepsPlace 50
    (replayed (text (eventsHeader :: (untilStop ++ fromStop)))) (fun _ _ ↦ True)
    (by decide +kernel)
  have hlines : (CsvReplayReader.init (text (eventsHeader :: (untilStop ++ fromStop)))).lines =
      untilStop ++ (CsvReplayReader.init (text (eventsHeader :: fromStop))).lines := by
    decide +kernel
  let snapshot := SnapshotManager.save Order.layout s₁.book s₁.pendingStops s₁.sequence
  have hevents : (stopTrigger snapshot).text "events" =
      some (text (eventsHeader :: (untilStop ++ fromStop))) := rfl
  have hrest : (stopTrigger snapshot).text "rest" = some (text (eventsHeader :: fromStop)) := rfl
  have hbytes : (stopTrigger snapshot).bytes "snapshot" = some snapshot := rfl
  obtain ⟨N, hN⟩ := replay_resumes "lob_replay" (by decide) (by decide) (by decide) hevents hrest
    hlines h₁ h (by decide +kernel) hb hstops hr hbytes
  obtain ⟨out, out', hmain, hmain', -, -, hcout⟩ := hN (N + 1) (Nat.lt_succ_self N)
  rw [hprinted] at hcout
  exact ⟨snapshot, N + 1, out, out', hmain, hmain', hcout⟩

end ReplayTool

end LobEngine
