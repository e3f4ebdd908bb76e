import LobEngine.Feed.CsvReplay

/-!
# The documented CSV format

`data/sample-replay/README.md:5–25` describes nine columns with plain numerals. The reader also
takes further columns, and whatever `stoull` and `stoll` take for a numeral.
-/

namespace LobEngine

open Numeral

/-! ## Lines -/

def sideWords : List (List Char × Side) := [("BUY".toList, .buy), ("SELL".toList, .sell)]

def orderTypeWords : List (List Char × OrderType) :=
  [("LIMIT".toList, .limit), ("MARKET".toList, .market), ("STOP".toList, .stop),
    ("STOPLIMIT".toList, .stopLimit), ("ICEBERG".toList, .iceberg)]

/-- The reading of a column that may be empty, which means 0. -/
def OrEmpty {α : Type} [Zero α] (P : List Char → α → Prop) (cs : List Char) (n : α) : Prop :=
  cs = [] ∧ n = 0 ∨ P cs n

/-- The event of nine columns, where `U` and `S` read the unsigned and the signed ones that the
event uses. -/
inductive Columns (U : List Char → UInt64 → Prop) (S : List Char → Int → Prop) :
    List (List Char) → OrderEvent → Prop
  | new {c₁ c₂ c₃ c₄ c₅ c₆ c₇ c₈ : List Char} {id quantity peakQty timestamp : UInt64}
      {price stopPrice : Int} {side : Side} {type : OrderType} :
      U c₁ id → (c₂, side) ∈ sideWords → (c₃, type) ∈ orderTypeWords → S c₄ price →
      U c₅ quantity → U c₆ peakQty → S c₇ stopPrice → U c₈ timestamp →
      Columns U S ["NEW".toList, c₁, c₂, c₃, c₄, c₅, c₆, c₇, c₈]
        (.newOrder ⟨{
          id := id, side := side, type := type, price := price, quantity := quantity
          origQty := quantity, peakQty := peakQty, stopPrice := stopPrice
          timestamp := timestamp }⟩)
  | cancel {c₁ c₂ c₃ c₄ c₅ c₆ c₇ c₈ : List Char} {id timestamp : UInt64} :
      U c₁ id → U c₈ timestamp →
      Columns U S ["CANCEL".toList, c₁, c₂, c₃, c₄, c₅, c₆, c₇, c₈] (.cancelOrder ⟨id, timestamp⟩)
  | modify {c₁ c₂ c₃ c₄ c₅ c₆ c₇ c₈ : List Char} {id quantity timestamp : UInt64} {price : Int} :
      U c₁ id → OrEmpty S c₄ price → OrEmpty U c₅ quantity → U c₈ timestamp →
      Columns U S ["MODIFY".toList, c₁, c₂, c₃, c₄, c₅, c₆, c₇, c₈]
        (.modifyOrder ⟨id, price, quantity, timestamp⟩)

/-- A well-formed line and its event: nine columns, with plain numerals. -/
def Documented (line : List Char) (ev : OrderEvent) : Prop :=
  Columns Plain PlainSigned (line.splitOn ',') ev

/-- A line that is not well formed, but whose first nine pieces become an event if its numerals
are read as `stoull` and `stoll` read them. -/
def LooselyFormed (line : List Char) : Prop :=
  (∃ ev, Columns Loose LooseSigned ((getlines ',' line).take 9) ev) ∧
    ¬∃ ev, Documented line ev

theorem Columns.mono {U U' : List Char → UInt64 → Prop} {S S' : List Char → Int → Prop}
    (hU : ∀ cs n, U cs n → U' cs n) (hS : ∀ cs n, S cs n → S' cs n) {columns : List (List Char)}
    {ev : OrderEvent} (h : Columns U S columns ev) : Columns U' S' columns ev := by
  cases h with
  | new h₁ h₂ h₃ h₄ h₅ h₆ h₇ h₈ =>
    exact .new (hU _ _ h₁) h₂ h₃ (hS _ _ h₄) (hU _ _ h₅) (hU _ _ h₆) (hS _ _ h₇) (hU _ _ h₈)
  | cancel h₁ h₈ => exact .cancel (hU _ _ h₁) (hU _ _ h₈)
  | modify h₁ h₄ h₅ h₈ =>
    exact .modify (hU _ _ h₁) (h₄.imp_right (hS _ _)) (h₅.imp_right (hU _ _)) (hU _ _ h₈)

/-! ## What the parser accepts -/

namespace CsvReplayReader

private theorem orThrow_eq_ok {α : Type} {what : String} {x : Option α} {a : α} :
    orThrow what x = .ok a ↔ x = some a := by
  cases x with
  | none => simp [orThrow]
  | some b => simp [orThrow]

private theorem bind_eq_ok {α β : Type} {x : Except String α} {f : α → Except String β} {b : β} :
    (x >>= f) = .ok b ↔ ∃ a, x = .ok a ∧ f a = .ok b := by
  cases x with
  | error what =>
    simp only [reduceCtorEq, false_and, exists_false, iff_false]
    exact fun h ↦ by cases h
  | ok a =>
    simp only [Except.ok.injEq, exists_eq_left']
    exact Iff.rfl

private theorem parseSide_eq_ok {s : List Char} {side : Side} :
    parseSide s = .ok side ↔ (s, side) ∈ sideWords := by
  constructor
  · intro h
    rw [parseSide] at h
    split_ifs at h with h₁ h₂
    all_goals
      obtain rfl := Except.ok.inj h
      subst s
      decide
  · intro h
    simp only [sideWords, List.mem_cons, Prod.mk.injEq, List.not_mem_nil, or_false] at h
    rcases h with ⟨rfl, rfl⟩ | ⟨rfl, rfl⟩
    all_goals rfl

private theorem parseOrderType_eq_ok {s : List Char} {type : OrderType} :
    parseOrderType s = .ok type ↔ (s, type) ∈ orderTypeWords := by
  constructor
  · intro h
    rw [parseOrderType] at h
    split_ifs at h with h₁ h₂ h₃ h₄ h₅
    all_goals
      obtain rfl := Except.ok.inj h
      subst s
      decide
  · intro h
    simp only [orderTypeWords, List.mem_cons, Prod.mk.injEq, List.not_mem_nil, or_false] at h
    rcases h with ⟨rfl, rfl⟩ | ⟨rfl, rfl⟩ | ⟨rfl, rfl⟩ | ⟨rfl, rfl⟩ | ⟨rfl, rfl⟩
    all_goals rfl

private theorem stoull_eq_ok {cs : List Char} {n : UInt64} :
    orThrow "stoull" (stoull cs) = .ok n ↔ Loose cs n := orThrow_eq_ok.trans stoull_eq_some_iff

private theorem stoll_eq_ok {cs : List Char} {n : Int} :
    orThrow "stoll" (stoll cs) = .ok n ↔ LooseSigned cs n := orThrow_eq_ok.trans stoll_eq_some_iff

private theorem orEmpty_eq_ok {α : Type} [Zero α] {P : List Char → α → Prop} {cs : List Char}
    {n : α} {read : Except String α} (hread : read = .ok n ↔ P cs n) (hnil : ¬P [] n) :
    emptyOr cs read = .ok n ↔ OrEmpty P cs n := by
  cases cs with
  | nil =>
    simp only [emptyOr, List.isEmpty_nil, if_true, OrEmpty, hnil, or_false, true_and,
      Except.ok.injEq]
    exact eq_comm
  | cons c cs => simp [emptyOr, OrEmpty, hread]

private theorem not_loose_nil {n : UInt64} : ¬Loose [] n := by
  rw [← stoull_eq_some_iff]
  exact fun h ↦ by cases h

private theorem not_looseSigned_nil {n : Int} : ¬LooseSigned [] n := by
  rw [← stoll_eq_some_iff]
  exact fun h ↦ by cases h

private theorem columns_of_parseFields {fields : List (List Char)} {ev : OrderEvent}
    (h : parseFields fields = .ok (some ev)) :
    Columns Loose LooseSigned (fields.take 9) ev := by
  cases fields with
  | nil => cases h
  | cons eventType fields =>
    unfold parseFields at h
    dsimp only at h
    split_ifs at h with hnew hcancel hmodify
    · subst hnew
      split at h
      · obtain ⟨id, hid, h⟩ := bind_eq_ok.mp h
        obtain ⟨side, hside, h⟩ := bind_eq_ok.mp h
        obtain ⟨type, htype, h⟩ := bind_eq_ok.mp h
        obtain ⟨price, hprice, h⟩ := bind_eq_ok.mp h
        obtain ⟨quantity, hquantity, h⟩ := bind_eq_ok.mp h
        obtain ⟨peakQty, hpeak, h⟩ := bind_eq_ok.mp h
        obtain ⟨stopPrice, hstop, h⟩ := bind_eq_ok.mp h
        obtain ⟨timestamp, htime, h⟩ := bind_eq_ok.mp h
        obtain rfl := Option.some.inj (Except.ok.inj h)
        exact .new (stoull_eq_ok.mp hid) (parseSide_eq_ok.mp hside) (parseOrderType_eq_ok.mp htype)
          (stoll_eq_ok.mp hprice) (stoull_eq_ok.mp hquantity) (stoull_eq_ok.mp hpeak)
          (stoll_eq_ok.mp hstop) (stoull_eq_ok.mp htime)
      · cases h
    · subst hcancel
      split at h
      · obtain ⟨id, hid, h⟩ := bind_eq_ok.mp h
        obtain ⟨timestamp, htime, h⟩ := bind_eq_ok.mp h
        obtain rfl := Option.some.inj (Except.ok.inj h)
        exact .cancel (stoull_eq_ok.mp hid) (stoull_eq_ok.mp htime)
      · cases h
    · subst hmodify
      split at h
      · obtain ⟨id, hid, h⟩ := bind_eq_ok.mp h
        obtain ⟨price, hprice, h⟩ := bind_eq_ok.mp h
        obtain ⟨quantity, hquantity, h⟩ := bind_eq_ok.mp h
        obtain ⟨timestamp, htime, h⟩ := bind_eq_ok.mp h
        obtain rfl := Option.some.inj (Except.ok.inj h)
        exact .modify (stoull_eq_ok.mp hid)
          ((orEmpty_eq_ok stoll_eq_ok not_looseSigned_nil).mp hprice)
          ((orEmpty_eq_ok stoull_eq_ok not_loose_nil).mp hquantity) (stoull_eq_ok.mp htime)
      · cases h

private theorem parseFields_of_columns {fields : List (List Char)} {ev : OrderEvent}
    (h : Columns Loose LooseSigned (fields.take 9) ev) : parseFields fields = .ok (some ev) := by
  rw [← List.take_append_drop 9 fields]
  generalize fields.take 9 = columns at h ⊢
  generalize fields.drop 9 = rest
  cases h with
  | new h₁ h₂ h₃ h₄ h₅ h₆ h₇ h₈ =>
    refine bind_eq_ok.mpr ⟨_, stoull_eq_ok.mpr h₁, ?_⟩
    refine bind_eq_ok.mpr ⟨_, parseSide_eq_ok.mpr h₂, ?_⟩
    refine bind_eq_ok.mpr ⟨_, parseOrderType_eq_ok.mpr h₃, ?_⟩
    refine bind_eq_ok.mpr ⟨_, stoll_eq_ok.mpr h₄, ?_⟩
    refine bind_eq_ok.mpr ⟨_, stoull_eq_ok.mpr h₅, ?_⟩
    refine bind_eq_ok.mpr ⟨_, stoull_eq_ok.mpr h₆, ?_⟩
    refine bind_eq_ok.mpr ⟨_, stoll_eq_ok.mpr h₇, ?_⟩
    exact bind_eq_ok.mpr ⟨_, stoull_eq_ok.mpr h₈, rfl⟩
  | cancel h₁ h₈ =>
    refine bind_eq_ok.mpr ⟨_, stoull_eq_ok.mpr h₁, ?_⟩
    exact bind_eq_ok.mpr ⟨_, stoull_eq_ok.mpr h₈, rfl⟩
  | modify h₁ h₄ h₅ h₈ =>
    refine bind_eq_ok.mpr ⟨_, stoull_eq_ok.mpr h₁, ?_⟩
    refine bind_eq_ok.mpr ⟨_, (orEmpty_eq_ok stoll_eq_ok not_looseSigned_nil).mpr h₄, ?_⟩
    refine bind_eq_ok.mpr ⟨_, (orEmpty_eq_ok stoull_eq_ok not_loose_nil).mpr h₅, ?_⟩
    exact bind_eq_ok.mpr ⟨_, stoull_eq_ok.mpr h₈, rfl⟩

/-- The pieces of a line are its columns, less an empty one at the end. -/
private theorem splitOn_eq_getlines (delim : Char) (cs : List Char) :
    cs.splitOn delim = getlines delim cs ∨ cs.splitOn delim = getlines delim cs ++ [[]] := by
  induction cs with
  | nil => exact .inr (List.splitOn_nil delim)
  | cons c cs ih =>
    rw [List.splitOn_cons_eq_if_modifyHead, getlines]
    by_cases hc : c = delim
    · simp only [hc, BEq.rfl, if_true, List.cons_append, List.cons.injEq, true_and]
      exact ih
    · simp only [beq_eq_false_iff_ne.mpr hc, Bool.false_eq_true, if_false, hc]
      cases hpieces : getlines delim cs with
      | nil =>
        have hone : cs.splitOn delim = [[]] := by
          rw [hpieces] at ih
          exact ih.resolve_left (List.splitOn_ne_nil delim cs)
        rw [hone]
        exact .inl rfl
      | cons piece pieces =>
        rw [hpieces] at ih
        rcases ih with ih | ih
        · rw [ih]
          exact .inl rfl
        · rw [ih]
          exact .inr rfl

/-- A well-formed line is accepted with its event. -/
private theorem parseFields_of_documented {line : List Char} {ev : OrderEvent}
    (h : Documented line ev) : parseFields (split line ',') = .ok (some ev) := by
  have hlast : ∃ cs c₈ n, line.splitOn ',' = cs ++ [c₈] ∧ Plain c₈ n := by
    unfold Documented at h
    generalize line.splitOn ',' = columns at h ⊢
    cases h with
    | new _ _ _ _ _ _ _ h₈ => exact ⟨[_, _, _, _, _, _, _, _], _, _, rfl, h₈⟩
    | cancel _ h₈ => exact ⟨[_, _, _, _, _, _, _, _], _, _, rfl, h₈⟩
    | modify _ _ _ h₈ => exact ⟨[_, _, _, _, _, _, _, _], _, _, rfl, h₈⟩
  obtain ⟨cs, c₈, n, hsplit, hplain⟩ := hlast
  have hpieces : getlines ',' line = line.splitOn ',' := by
    rcases splitOn_eq_getlines ',' line with he | he
    · exact he.symm
    · have hempty : c₈ = [] := by
        rw [hsplit] at he
        exact (List.append_inj' he rfl).2 |> List.cons.inj |>.1
      exact absurd hempty hplain.1.1
  have hnine : (line.splitOn ',').take 9 = line.splitOn ',' := by
    unfold Documented at h
    generalize line.splitOn ',' = columns at h ⊢
    cases h with
    | new | cancel | modify => rfl
  apply parseFields_of_columns
  rw [split, hpieces, hnine]
  exact h.mono (fun _ _ hu ↦ hu.loose) (fun _ _ hs ↦ hs.loose)

end CsvReplayReader

/-! ## Calls -/

/-- What one call of `next` does with the lines that are left, for the lines that have an event:
it returns the event, if there is one, the lines behind it, and the number of lines that are
neither empty nor have an event. -/
inductive Call (P : List Char → OrderEvent → Prop) :
    List (List Char) → Option OrderEvent → List (List Char) → Nat → Prop
  | stop : Call P [] none [] 0
  | empty {lines rest : List (List Char)} {ev : Option OrderEvent} {errors : Nat} :
      Call P lines ev rest errors → Call P ([] :: lines) ev rest errors
  | event {line : List Char} {lines : List (List Char)} {ev : OrderEvent} : P line ev →
      Call P (line :: lines) (some ev) lines 0
  | error {line : List Char} {lines rest : List (List Char)} {ev : Option OrderEvent}
      {errors : Nat} : line ≠ [] → (∀ e, ¬P line e) → Call P lines ev rest errors →
      Call P (line :: lines) ev rest (errors + 1)

/-- The call returns what `P` makes of the lines that are left. It leaves `out` as it was if no
line has an event, and counts the other lines. -/
def CsvReplayReader.Follows (P : List Char → OrderEvent → Prop) (r : CsvReplayReader) : Prop :=
  ∀ out, ∃ ev rest errors, Call P r.lines ev rest errors ∧
    (r.next out).1 = ev.isSome ∧ (r.next out).2.1 = ev.getD out ∧
    (r.next out).2.2.lines = rest ∧
    (r.next out).2.2.errorCount = r.errorCount + UInt64.ofNat errors

/-- The reader after some calls. -/
inductive CsvReplayReader.Reached (start : CsvReplayReader) : CsvReplayReader → Prop
  | start : Reached start start
  | next {r : CsvReplayReader} (out : OrderEvent) : Reached start r →
      Reached start (r.next out).2.2

section

variable {P Q : List Char → OrderEvent → Prop} {lines rest : List (List Char)}
  {ev : Option OrderEvent} {n m : Nat}

theorem Call.congr (hPQ : ∀ line ∈ lines, ∀ e, P line e ↔ Q line e) (h : Call P lines ev rest n) :
    Call Q lines ev rest n := by
  induction h with
  | stop => exact .stop
  | empty _ ih => exact .empty (ih fun line hl ↦ hPQ line (List.mem_cons_of_mem _ hl))
  | event hP => exact .event ((hPQ _ List.mem_cons_self _).mp hP)
  | error hne hno _ ih =>
    refine .error hne (fun e he ↦ hno e ((hPQ _ List.mem_cons_self e).mpr he)) ?_
    exact ih fun line hl ↦ hPQ line (List.mem_cons_of_mem _ hl)

theorem Call.suffix (h : Call P lines ev rest n) : rest <:+ lines := by
  induction h with
  | stop => exact List.suffix_rfl
  | empty _ ih => exact ih.trans (List.suffix_cons _ _)
  | event _ => exact List.suffix_cons _ _
  | error _ _ _ ih => exact ih.trans (List.suffix_cons _ _)

/-- A call that returns an event uses up a line. -/
theorem Call.length_lt (h : Call P lines ev rest n) (hev : ev.isSome) :
    rest.length < lines.length := by
  induction h with
  | stop => cases hev
  | event _ => exact Nat.lt_succ_self _
  | empty _ ih => exact (ih hev).trans (Nat.lt_succ_self _)
  | error _ _ _ ih => exact (ih hev).trans (Nat.lt_succ_self _)

theorem Call.rest_eq_nil (h : Call P lines ev rest n) (hev : ev = none) : rest = [] := by
  induction h with
  | stop => rfl
  | event _ => cases hev
  | empty _ ih => exact ih hev
  | error _ _ _ ih => exact ih hev

end

namespace CsvReplayReader

variable {r s : CsvReplayReader}

/-- The line is accepted, with an event. -/
def Accepts (line : List Char) (ev : OrderEvent) : Prop :=
  parseFields (split line ',') = .ok (some ev)

private theorem not_accepts_nil (ev : OrderEvent) : ¬Accepts [] ev :=
  fun h ↦ by cases h

private theorem accepts_of_looselyFormed {line : List Char} (h : LooselyFormed line) :
    ∃ ev, Accepts line ev := by
  obtain ⟨ev, hev⟩ := h.1
  exact ⟨ev, parseFields_of_columns hev⟩

/-- On a line that is not loosely formed the parser accepts what is documented. -/
private theorem accepts_iff_documented {line : List Char} (h : ¬LooselyFormed line)
    (ev : OrderEvent) : Accepts line ev ↔ Documented line ev := by
  refine ⟨fun hacc ↦ ?_, parseFields_of_documented⟩
  obtain ⟨e, he⟩ : ∃ e, Documented line e := by
    by_contra hno
    exact h ⟨⟨ev, columns_of_parseFields hacc⟩, hno⟩
  have hsame : e = ev := by
    have hboth := (parseFields_of_documented he).symm.trans hacc
    exact Option.some.inj (Except.ok.inj hboth)
  exact hsame ▸ he

private theorem split_ne_nil {line : List Char} (h : line ≠ []) : split line ',' ≠ [] := by
  cases line with
  | nil => exact absurd rfl h
  | cons c cs =>
    rw [split, getlines]
    split
    · exact List.cons_ne_nil _ _
    · split <;> exact List.cons_ne_nil _ _

/-- Only a line without pieces is passed over without an event and without an error. -/
private theorem parseFields_ne_none {fields : List (List Char)} (h : fields ≠ []) :
    parseFields fields ≠ .ok none := by
  intro hnone
  cases fields with
  | nil => exact h rfl
  | cons eventType fields =>
    unfold parseFields at hnone
    dsimp only at hnone
    split_ifs at hnone
    all_goals
      split at hnone
      · simp only [bind_eq_ok] at hnone
        simp [pure, Except.pure] at hnone
      · cases hnone

private theorem nextLoop_call (out : OrderEvent) (number errors : UInt64)
    (cerr : List (UInt64 × String))
    (lines : List (List Char)) : ∃ ev rest n, Call Accepts lines ev rest n ∧
      (nextLoop out number errors cerr lines).1 = ev.isSome ∧
      (nextLoop out number errors cerr lines).2.1 = ev.getD out ∧
      (nextLoop out number errors cerr lines).2.2.lines = rest ∧
      (nextLoop out number errors cerr lines).2.2.errorCount = errors + UInt64.ofNat n := by
  induction lines generalizing number errors cerr with
  | nil => exact ⟨none, [], 0, .stop, rfl, rfl, rfl, (UInt64.add_zero errors).symm⟩
  | cons line lines ih =>
    rw [nextLoop]
    by_cases hempty : line = []
    · subst hempty
      obtain ⟨ev, rest, n, hcall, hrest⟩ := ih (number + 1) errors cerr
      exact ⟨ev, rest, n, .empty hcall, hrest⟩
    rw [if_neg (by simpa using hempty)]
    cases hparse : parseFields (split line ',') with
    | error what =>
      obtain ⟨ev, rest, n, hcall, hfound, hout, hlines, herrors⟩ :=
        ih (number + 1) (errors + 1) (cerr ++ [(number + 1, what)])
      refine ⟨ev, rest, n + 1, .error hempty (fun e he ↦ ?_) hcall, hfound, hout, hlines, ?_⟩
      · rw [Accepts, hparse] at he
        cases he
      · rw [herrors, UInt64.add_assoc, UInt64.add_comm 1, UInt64.ofNat_add]
        rfl
    | ok found =>
      cases found with
      | some ev =>
        exact ⟨some ev, lines, 0, .event hparse, rfl, rfl, rfl, (UInt64.add_zero errors).symm⟩
      | none => exact absurd hparse (parseFields_ne_none (split_ne_nil hempty))

theorem follows_accepts (r : CsvReplayReader) : r.Follows Accepts :=
  fun out ↦ nextLoop_call out r.lineNumber r.errorCount r.cerr r.lines

theorem Reached.head {out : OrderEvent} (h : Reached (r.next out).2.2 s) : Reached r s := by
  induction h with
  | start => exact .next out .start
  | next out' _ ih => exact .next out' ih

/-- The lines that are left are the last lines of the file. -/
theorem Reached.suffix (h : Reached r s) : s.lines <:+ r.lines := by
  induction h with
  | start => exact List.suffix_rfl
  | @next t out _ ih =>
    obtain ⟨ev, rest, n, hcall, -, -, hlines, -⟩ := follows_accepts t out
    rw [hlines]
    exact hcall.suffix.trans ih

/-- A call that is right for the documented format has not used up a loosely formed line. -/
private theorem loose_mem_rest {lines rest : List (List Char)} {ev : Option OrderEvent} {n m : Nat}
    (hacc : Call Accepts lines ev rest n) (hdoc : Call Documented lines ev rest m) :
    ∀ line ∈ lines, LooselyFormed line → line ∈ rest := by
  have hnil : ¬LooselyFormed [] := fun hl ↦ by
    obtain ⟨e, he⟩ := accepts_of_looselyFormed hl
    exact not_accepts_nil e he
  induction hacc generalizing m with
  | stop => exact fun line hline _ ↦ hline
  | @empty lines rest ev n hcall ih =>
    intro line hline hl
    rcases List.mem_cons.mp hline with rfl | hline
    · exact absurd hl hnil
    · cases hdoc with
      | empty hdoc => exact ih hdoc line hline hl
      | event hd => exact absurd (parseFields_of_documented hd) (not_accepts_nil _)
      | error hne _ _ => exact absurd rfl hne
  | @event line' lines ev haccepts =>
    intro line hline hl
    rcases List.mem_cons.mp hline with rfl | hline
    · cases hdoc with
      | empty hdoc => exact absurd hl hnil
      | event hd => exact absurd ⟨ev, hd⟩ hl.2
      | error _ _ hdoc => exact absurd (hdoc.length_lt rfl) (Nat.lt_irrefl _)
    · exact hline
  | @error line' lines rest ev n hne hno hcall ih =>
    intro line hline hl
    rcases List.mem_cons.mp hline with rfl | hline
    · obtain ⟨e, he⟩ := accepts_of_looselyFormed hl
      exact absurd he (hno e)
    · cases hdoc with
      | empty hdoc => exact absurd rfl hne
      | event hd => exact absurd (parseFields_of_documented hd) (hno _)
      | error _ _ hdoc => exact ih hdoc line hline hl

/-- If every call is right for the documented format, no line is loosely formed. -/
private theorem not_loose_of_follows (r : CsvReplayReader)
    (h : ∀ s, Reached r s → s.Follows Documented) : ∀ line ∈ r.lines, ¬LooselyFormed line := by
  generalize hk : r.lines.length = k
  induction k using Nat.strong_induction_on generalizing r with
  | _ k ih =>
    subst hk
    intro line hline hl
    let out : OrderEvent := .cancelOrder {}
    obtain ⟨ev, rest, n, hdoc, hfound, hout, hlines, -⟩ := h r .start out
    obtain ⟨ev', rest', m, hacc, hfound', hout', hlines', -⟩ := follows_accepts r out
    obtain rfl : ev = ev' := by
      rw [hfound] at hfound'
      rw [hout] at hout'
      cases ev with
      | none => exact (Option.not_isSome_iff_eq_none.mp (by rw [← hfound']; decide)).symm
      | some e =>
        obtain ⟨e', rfl⟩ := Option.isSome_iff_exists.mp hfound'.symm
        exact congrArg some hout'
    obtain rfl : rest = rest' := hlines.symm.trans hlines'
    have hmem := loose_mem_rest hacc hdoc line hline hl
    cases ev with
    | none =>
      rw [hdoc.rest_eq_nil rfl] at hmem
      exact absurd hmem List.not_mem_nil
    | some e =>
      have hlt := hdoc.length_lt rfl
      rw [← hlines] at hmem hlt
      exact ih _ hlt (r.next out).2.2 (fun s hs ↦ h s hs.head) rfl line hmem hl

/-- If no line is loosely formed, every call is right for the documented format. -/
private theorem follows_of_not_loose (h : ∀ line ∈ r.lines, ¬LooselyFormed line)
    (hs : Reached r s) : s.Follows Documented := by
  intro out
  obtain ⟨ev, rest, n, hcall, hrest⟩ := follows_accepts s out
  refine ⟨ev, rest, n, hcall.congr fun line hline e ↦ ?_, hrest⟩
  exact accepts_iff_documented (h line (hs.suffix.mem hline)) e

end CsvReplayReader

/-- Every call on a file does what the documented format says if and only if no line after the
header is loosely formed. -/
theorem csv_reader_documented_iff (content : List Char) :
    (∀ r, CsvReplayReader.Reached (.init content) r → r.Follows Documented) ↔
      ∀ line ∈ (getlines '\n' content).tail, ¬LooselyFormed line :=
  ⟨CsvReplayReader.not_loose_of_follows (.init content),
    fun h _ hr ↦ CsvReplayReader.follows_of_not_loose h hr⟩

/-- A line whose order has the identifier -1. -/
private def negativeId : List Char := "NEW,-1,BUY,LIMIT,100,50,0,0,1".toList

private theorem negativeId_loose : LooselyFormed negativeId := by
  refine ⟨⟨.newOrder ⟨{ id := -1, side := .buy, type := .limit, price := 100, quantity := 50
                        origQty := 50, timestamp := 1 }⟩,
    CsvReplayReader.columns_of_parseFields (by decide +kernel)⟩, ?_⟩
  rintro ⟨ev, hdoc⟩
  have hcolumns : negativeId.splitOn ',' = ["NEW".toList, "-1".toList, "BUY".toList,
      "LIMIT".toList, "100".toList, "50".toList, "0".toList, "0".toList, "1".toList] := by
    decide +kernel
  rw [Documented, hcolumns] at hdoc
  cases hdoc with
  | new hid => exact absurd (hid.1.2 '-' (by decide)) (by decide)

/-- The order -1 is read as the order 18446744073709551615. -/
theorem csv_negative_id_accepted : ¬∀ content : List Char, ∀ r,
    CsvReplayReader.Reached (.init content) r → r.Follows Documented := by
  intro h
  have hloose := CsvReplayReader.not_loose_of_follows _ (h ("header\n".toList ++ negativeId))
  exact hloose negativeId (by decide +kernel) negativeId_loose

end LobEngine
