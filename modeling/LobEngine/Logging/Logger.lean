import LobEngine.Lib.Interleaving
import LobEngine.Lib.RingFeed
import Mathlib.Data.List.TakeWhile
import Mathlib.Data.UInt

/-!
# The logger

`src/logging/logger.hpp`, `src/logging/logger.cpp`: one thread logs, a writer thread appends the
lines to the file, and a third thread starts and stops the writer, as often as it likes. One step
is one load or store of a shared variable, one access to a slot or one join. A character stands
for a byte.
-/

namespace LobEngine

open RingProtocol Interleaving

namespace Logger

/-! ### Records -/

/-- `enum class Logger::Level`; `src/logging/logger.hpp:16`. -/
inductive Level where
  | debug
  | info
  | warn
  | error
  deriving DecidableEq, Repr

/-- `Logger::level_str`; `src/logging/logger.hpp:51–63`. -/
def levelStr : Level → List Char
  | .debug => "DEBUG".toList
  | .info => "INFO".toList
  | .warn => "WARN".toList
  | .error => "ERROR".toList

/-- `struct Logger::LogRecord`; `src/logging/logger.hpp:34–39`. -/
structure LogRecord where
  level : Level
  category : List Char
  message : List Char
  timestamp : UInt64
  deriving DecidableEq

/-- `std::memset` with 0 and `std::memcpy` of what leaves room for the last zero, for an array of
`size` bytes; `src/logging/logger.cpp:49–55`. -/
def fill (size : Nat) (s : List Char) : List Char :=
  s.take (size - 1) ++ List.replicate (size - min s.length (size - 1)) '\x00'

/-- What `operator<<` prints of an array of bytes: all up to the first zero. -/
def cString (bytes : List Char) : List Char := bytes.takeWhile (· ≠ '\x00')

/-- The record that `log` writes into its slot; `src/logging/logger.cpp:42–55`. -/
def record (level : Level) (category message : List Char) (now : UInt64) : LogRecord where
  level := level
  category := fill 16 category
  message := fill 256 message
  timestamp := now

/-- The line that `writer_loop` prints; `src/logging/logger.cpp:72–73`. -/
def line (r : LogRecord) : List Char :=
  "\x7b\"ts\":".toList ++ Nat.toDigits 10 r.timestamp.toNat ++ ",\"level\":\"".toList ++
    levelStr r.level ++ "\",\"cat\":\"".toList ++ cString r.category ++ "\",\"msg\":\"".toList ++
    cString r.message ++ "\"\x7d\n".toList

/-- An array always has its zero, and shows the first `size - 1` bytes up to a zero in them. -/
private theorem cString_fill {size : Nat} (h : 0 < size) (s : List Char) :
    cString (fill size s) = cString (s.take (size - 1)) := by
  obtain ⟨n, hn⟩ : ∃ n, size - min s.length (size - 1) = n + 1 :=
    ⟨size - min s.length (size - 1) - 1, by omega⟩
  rw [fill, hn, List.replicate_succ, cString, cString, List.takeWhile_append]
  split
  · next hall =>
    rw [List.takeWhile_cons_of_neg (by simp), List.append_nil]
    exact ((List.takeWhile_prefix _).eq_of_length hall).symm
  · rfl

/-- A line shows 15 bytes of the category and 255 of the message, as they were given. -/
theorem record_shown (level : Level) {category message : List Char} (now : UInt64)
    (hcategory : '\x00' ∉ category) (hmessage : '\x00' ∉ message) :
    cString (record level category message now).category = category.take 15 ∧
      cString (record level category message now).message = message.take 255 := by
  have hshown (size : Nat) (hsize : 0 < size) {s : List Char} (hs : '\x00' ∉ s) :
      cString (fill size s) = s.take (size - 1) := by
    rw [cString_fill hsize, cString, List.takeWhile_eq_self_iff]
    intro c hc
    have hne : c ≠ '\x00' := ne_of_mem_of_not_mem (List.mem_of_mem_take hc) hs
    simpa using hne
  exact ⟨hshown 16 (by decide) hcategory, hshown 256 (by decide) hmessage⟩

/-! ### The size of the queue -/

/-- The loop of `Logger::Logger` that rounds the size of the queue up to a power of two;
`src/logging/logger.cpp:8–10`. `fuel` bounds its iterations. -/
def roundUp (queueSize : UInt32) : Nat → UInt32 → Option UInt32
  | 0, _ => none
  | fuel + 1, n => if n < queueSize then roundUp queueSize fuel (n <<< 1) else some n

variable {queueSize n m : UInt32} {j k fuel : Nat}

private theorem toNat_shiftLeft_one (hn : n.toNat = 2 ^ j) (hj : j < 31) :
    (n <<< 1).toNat = 2 ^ (j + 1) := by
  have hlt : 2 ^ (j + 1) < 2 ^ 32 := Nat.pow_lt_pow_right (by decide) (by omega)
  rw [UInt32.toNat_shiftLeft, hn]
  show 2 ^ j <<< 1 % 2 ^ 32 = _
  rw [Nat.shiftLeft_eq, ← Nat.pow_succ]
  exact Nat.mod_eq_of_lt hlt

/-- Past the largest power of two the loop is at 0 and stays there. -/
private theorem roundUp_zero (h : 0 < queueSize) (fuel : Nat) :
    roundUp queueSize fuel 0 = none := by
  induction fuel with
  | zero => rfl
  | succ fuel ih =>
    rw [roundUp, if_pos h]
    exact ih

/-- What the loop returns from `2 ^ j` on is the next power of two that is large enough. -/
private theorem roundUp_from (h : roundUp queueSize fuel n = some m) (hn : n.toNat = 2 ^ j)
    (hj : j < 32) (hbelow : ∀ i < j, 2 ^ i < queueSize.toNat) : ∃ k : Fin 32, m.toNat = 2 ^ k.val ∧
      queueSize.toNat ≤ 2 ^ k.val ∧ ∀ i < k.val, 2 ^ i < queueSize.toNat := by
  induction fuel generalizing n j with
  | zero => exact absurd h (by simp [roundUp])
  | succ fuel ih =>
    rw [roundUp] at h
    split at h
    · next hlt =>
      rw [UInt32.lt_iff_toNat_lt, hn] at hlt
      by_cases hlast : j = 31
      · subst hlast
        have hzero : n <<< 1 = 0 := by
          apply UInt32.toNat_inj.mp
          rw [UInt32.toNat_shiftLeft, hn]
          rfl
        have hpos : 0 < queueSize := UInt32.lt_iff_toNat_lt.mpr (Nat.zero_lt_of_lt hlt)
        rw [hzero, roundUp_zero hpos] at h
        exact absurd h (by simp)
      · apply ih h (toNat_shiftLeft_one hn (by omega)) (by omega)
        intro i hi
        rcases Nat.lt_succ_iff_lt_or_eq.mp hi with hi | rfl
        · exact hbelow i hi
        · exact hlt
    · next hge =>
      obtain rfl := Option.some.inj h
      rw [UInt32.lt_iff_toNat_lt, hn, Nat.not_lt] at hge
      exact ⟨⟨j, hj⟩, hn, hge, hbelow⟩

/-- From `2 ^ j` the loop reaches a large enough power of two. -/
private theorem roundUp_reaches (d : Nat) (hn : n.toNat = 2 ^ j) (hk : j + d < 32)
    (hle : queueSize.toNat ≤ 2 ^ (j + d)) (hbelow : ∀ i < j + d, 2 ^ i < queueSize.toNat) :
    ∃ m, roundUp queueSize (d + 1) n = some m ∧ m.toNat = 2 ^ (j + d) := by
  induction d generalizing n j with
  | zero =>
    refine ⟨n, ?_, hn⟩
    rw [roundUp, if_neg]
    rw [UInt32.lt_iff_toNat_lt, hn]
    exact Nat.not_lt.mpr hle
  | succ d ih =>
    have hlt : n < queueSize := by
      rw [UInt32.lt_iff_toNat_lt, hn]
      exact hbelow j (by omega)
    have hnext := toNat_shiftLeft_one hn (by omega)
    have hsum : j + (d + 1) = j + 1 + d := by omega
    rw [hsum] at hk hle hbelow
    rw [roundUp, if_pos hlt, hsum]
    exact ih hnext hk hle hbelow

/-- The constructor returns exactly if some 32-bit power of two is large enough, and the queue then
has as many slots as the least one says. For sizes above `2 ^ 31` it never returns. -/
theorem queue_size_rounded (queueSize n : UInt32) : (∃ fuel, roundUp queueSize fuel 1 = some n) ↔
    ∃ k : Fin 32, n.toNat = 2 ^ k.val ∧ queueSize.toNat ≤ 2 ^ k.val ∧
      ∀ i < k.val, 2 ^ i < queueSize.toNat := by
  constructor
  · rintro ⟨fuel, h⟩
    exact roundUp_from (j := 0) h rfl (by decide) fun i hi ↦ absurd hi (Nat.not_lt_zero i)
  · rintro ⟨k, hn, hle, hbelow⟩
    rw [← Nat.zero_add k.val] at hle hbelow
    obtain ⟨m, hm, hpow⟩ := roundUp_reaches (n := 1) k.val rfl (by omega) hle hbelow
    rw [Nat.zero_add, ← hn] at hpow
    obtain rfl := UInt32.toNat_inj.mp hpow
    exact ⟨_, hm⟩

/-! ### The threads -/

/-- Where the writer thread is: it looks at the flag, compares the cursors, is in the body of its
loop, or has left it. -/
inductive WriterPoint where
  | testing
  | checking
  | draining
  | exited
  deriving DecidableEq

/-- Where the controlling thread is: outside `start` and `stop`, or waiting for the writer. -/
inductive ControlPoint where
  | idle
  | joining
  deriving DecidableEq

end Logger

open Logger

/-- `class Logger` with its three threads, for a queue of `2 ^ k` slots;
`src/logging/logger.hpp:41–48`. `writer` is none while there is no thread, `file` records the lines
appended to the file. -/
structure Logger (k : Fin 32) where
  feed : Feed LogRecord k
  running : Bool
  writer : Option WriterPoint
  control : ControlPoint
  file : List (List Char)

/-- A step of one of the threads: a call of `log`, with the time that it reads, a step of a call,
which may pass through a slot that holds `junk`, a step of the writer, or one of `start` or
`stop`. -/
inductive LogStep where
  | log (level : Level) (category message : List Char) (now : UInt64)
  | push (junk : LogRecord)
  | write
  | start
  | stop
  | join

/-- The records of the calls of `log`. -/
def LogStep.logged : LogStep → List LogRecord
  | .log level category message now => [record level category message now]
  | .push _ | .write | .start | .stop | .join => []

namespace Logger

variable {k : Fin 32}

/-- `Logger::Logger`, once it has rounded the size; `src/logging/logger.cpp:11–12`. -/
def init (k : Fin 32) : Logger k where
  feed := .init k ⟨.debug, [], [], 0⟩
  running := false
  writer := none
  control := .idle
  file := []

/-- A call of `Logger::log`; `src/logging/logger.cpp:33–58`. -/
def log (level : Level) (category message : List Char) (now : UInt64) (w : Logger k) :
    Option (Logger k) :=
  (w.feed.call [record level category message now]).map fun feed ↦ { w with feed := feed }

/-- `Logger::start`; `src/logging/logger.cpp:17–22`. -/
def start (w : Logger k) : Option (Logger k) :=
  match w.control with
  | .idle => if w.running then some w else some { w with running := true, writer := some .testing }
  | .joining => none

/-- `Logger::stop` up to the join; `src/logging/logger.cpp:24–29`. -/
def stop (w : Logger k) : Option (Logger k) :=
  match w.control with
  | .idle => if w.running then some { w with running := false, control := .joining } else some w
  | .joining => none

/-- The join of `Logger::stop`; `src/logging/logger.cpp:28–30`. -/
def join (w : Logger k) : Option (Logger k) :=
  match w.control, w.writer with
  | .joining, some .exited => some { w with writer := none, control := .idle }
  | .joining, some .testing | .joining, some .checking | .joining, some .draining
  | .joining, none | .idle, _ => none

/-- One step of `Logger::writer_loop`, which reads its slot, prints the line and then releases the
slot; `src/logging/logger.cpp:60–79`. -/
def writerLoop (w : Logger k) : Option (Logger k) :=
  match w.writer with
  | some .testing => some { w with writer := some (if w.running then .draining else .checking) }
  | some .checking =>
    some { w with
      writer := some (if w.feed.ring.head = w.feed.ring.tail then .exited else .draining) }
  | some .draining =>
    match w.feed.ring.popper, w.feed.pop (.readFirst id) with
    | .found head, (feed, _) =>
      some { w with feed := feed, file := w.file ++ [line (w.feed.ring.read head)] }
    | _, (feed, .pending) => some { w with feed := feed }
    | _, (feed, _) => some { w with feed := feed, writer := some .testing }
  | some .exited | none => none

/-- One step of the logger. -/
def step (w : Logger k) : LogStep → Option (Logger k)
  | .log level category message now => w.log level category message now
  | .push junk => (w.feed.push junk).map fun feed ↦ { w with feed := feed }
  | .write => w.writerLoop
  | .start => w.start
  | .stop => w.stop
  | .join => w.join

/-- The steps of the writer, one constructor for each. -/
inductive Writes (w : Logger k) : Logger k → Prop
  | test : w.writer = some .testing →
      Writes w { w with writer := some (if w.running then .draining else .checking) }
  | close : w.writer = some .checking → w.feed.ring.head = w.feed.ring.tail →
      Writes w { w with writer := some .exited }
  | reopen : w.writer = some .checking → w.feed.ring.head ≠ w.feed.ring.tail →
      Writes w { w with writer := some .draining }
  | print {head : Cursor k} {ring : Ring LogRecord k} {r : Result LogRecord} :
      w.writer = some .draining → w.feed.ring.popper = .found head →
      w.feed.ring.Pops (.readFirst id) ring r →
      Writes w { w with feed := { w.feed with ring := ring }
                        file := w.file ++ [line (w.feed.ring.read head)] }
  | advance {ring : Ring LogRecord k} {r : Result LogRecord} : w.writer = some .draining →
      (∀ head, w.feed.ring.popper ≠ .found head) → w.feed.ring.Pops (.readFirst id) ring r →
      Writes w { w with feed := { w.feed with ring := ring } }
  | turn {ring : Ring LogRecord k} {r : Result LogRecord} : w.writer = some .draining →
      (∀ head, w.feed.ring.popper ≠ .found head) → w.feed.ring.Pops (.readFirst id) ring r →
      Writes w { w with feed := { w.feed with ring := ring }, writer := some .testing }

/-- The steps by their effect: the logging thread moves on, with the records that it gives to
`log`, or the writer or the controlling thread does. -/
inductive Moves (w : Logger k) : List LogRecord → Logger k → Prop
  | feed {feed : Feed LogRecord k} {rs : List LogRecord} : w.feed.Moves feed →
      feed.offered = w.feed.offered ++ rs → Moves w rs { w with feed := feed }
  | write {w' : Logger k} : w.Writes w' → Moves w [] w'
  | start : w.control = .idle → w.running = false →
      Moves w [] { w with running := true, writer := some .testing }
  | stop : w.control = .idle → w.running = true →
      Moves w [] { w with running := false, control := .joining }
  | join : w.control = .joining → w.writer = some .exited →
      Moves w [] { w with writer := none, control := .idle }
  | none : Moves w [] w

variable {w w' : Logger k} {a : LogStep} {as : List LogStep}

theorem writerLoop_writes (h : w.writerLoop = some w') : w.Writes w' := by
  have hpop := Ring.pop_step (.readFirst id) w.feed.ring
  unfold writerLoop at h
  simp only [Feed.pop] at h
  generalize w.feed.ring.pop (.readFirst id) = out at h hpop
  obtain ⟨ring, r⟩ := out
  split at h
  · next hwriter =>
    obtain rfl := Option.some.inj h
    exact .test hwriter
  · next hwriter =>
    obtain rfl := Option.some.inj h
    split
    · next hempty => exact .close hwriter hempty
    · next hne => exact .reopen hwriter hne
  · next hwriter =>
    split at h
    · next hfound heq =>
      obtain ⟨rfl, -⟩ := Prod.mk.inj heq
      obtain rfl := Option.some.inj h
      exact .print hwriter hfound hpop
    · next heq hnot =>
      obtain ⟨rfl, -⟩ := Prod.mk.inj heq
      obtain rfl := Option.some.inj h
      exact .advance hwriter hnot hpop
    · next heq hnot =>
      obtain ⟨rfl, -⟩ := Prod.mk.inj heq
      obtain rfl := Option.some.inj h
      exact .turn hwriter hnot hpop
  · exact absurd h (by simp)
  · exact absurd h (by simp)

theorem stop_moves (h : w.stop = some w') : w.Moves [] w' := by
  unfold stop at h
  split at h
  · next hidle =>
    split at h
    · next hrunning =>
      obtain rfl := Option.some.inj h
      exact .stop hidle hrunning
    · obtain rfl := Option.some.inj h
      exact .none
  · exact absurd h (by simp)

theorem step_moves (h : w.step a = some w') : w.Moves a.logged w' := by
  cases a with
  | log level category message now =>
    obtain ⟨feed, hfeed, rfl⟩ := Option.map_eq_some_iff.mp h
    exact .feed (Feed.call_moves hfeed) (Feed.call_offered hfeed)
  | push junk =>
    obtain ⟨feed, hfeed, rfl⟩ := Option.map_eq_some_iff.mp h
    apply Moves.feed (Feed.push_moves hfeed)
    exact (Feed.push_offered hfeed).trans (List.append_nil _).symm
  | write => exact .write (writerLoop_writes h)
  | start =>
    simp only [step, start] at h
    split at h
    · next hidle =>
      split at h
      · obtain rfl := Option.some.inj h
        exact .none
      · next hrunning =>
        obtain rfl := Option.some.inj h
        exact .start hidle (by simpa using hrunning)
    · exact absurd h (by simp)
  | stop => exact stop_moves h
  | join =>
    simp only [step, join] at h
    split at h
    · next hjoining hexited =>
      obtain rfl := Option.some.inj h
      exact .join hjoining hexited
    all_goals exact absurd h (by simp)

/-! ### What the writer appends -/

/-- The invariant: the file holds the lines of the records that were read from the queue, in order,
and there is a writer from the call of `start` to the end of `stop`. -/
structure Sound (w : Logger k) : Prop where
  feed : w.feed.Sound
  file : w.file = w.feed.ring.readOut.map line
  idle : w.control = .idle → w.running = w.writer.isSome
  joining : w.control = .joining → w.running = false
  closing : w.writer = some .checking ∨ w.writer = some .exited → w.running = false

private theorem sound_init (k : Fin 32) : Sound (init k) where
  feed := .init k _
  file := rfl
  idle _ := rfl
  joining h := ControlPoint.noConfusion h
  closing _ := rfl

/-- A pop that copies no slot. -/
private theorem readOut_same {ring : Ring LogRecord k} {r : Result LogRecord}
    (hnot : ∀ head, w.feed.ring.popper ≠ .found head)
    (hpop : w.feed.ring.Pops (.readFirst id) ring r) : ring.readOut = w.feed.ring.readOut := by
  rw [hpop.readOut]
  split
  · next hfound => exact absurd hfound (hnot _)
  all_goals exact List.append_nil _

/-- A step of the writer. -/
theorem Sound.write (h : Sound w) (hm : w.Writes w') : Sound w' := by
  have hidle {p : WriterPoint} {q : WriterPoint} (hw : w.writer = some p)
      (hc : w.control = .idle) : w.running = (some q).isSome := by
    rw [h.idle hc, hw]
    rfl
  cases hm with
  | test hwriter =>
    refine ⟨h.feed, h.file, hidle hwriter, h.joining, fun hclosing ↦ ?_⟩
    cases hrunning : w.running with
    | true => simp [hrunning] at hclosing
    | false => rfl
  | close hwriter =>
    exact ⟨h.feed, h.file, hidle hwriter, h.joining, fun _ ↦ h.closing (.inl hwriter)⟩
  | reopen hwriter =>
    exact ⟨h.feed, h.file, hidle hwriter, h.joining, fun _ ↦ h.closing (.inl hwriter)⟩
  | print hwriter hfound hpop =>
    refine ⟨h.feed.pop hpop, ?_, h.idle, h.joining, h.closing⟩
    rw [hpop.readOut, hfound, List.map_append, h.file]
    rfl
  | advance hwriter hnot hpop =>
    refine ⟨h.feed.pop hpop, ?_, h.idle, h.joining, h.closing⟩
    rw [readOut_same hnot hpop]
    exact h.file
  | turn hwriter hnot hpop =>
    refine ⟨h.feed.pop hpop, ?_, hidle hwriter, h.joining, fun hclosing ↦ ?_⟩
    · rw [readOut_same hnot hpop]
      exact h.file
    · exact absurd hclosing (by simp)

theorem Sound.move {rs : List LogRecord} (h : Sound w) (hm : w.Moves rs w') : Sound w' := by
  cases hm with
  | write hw => exact h.write hw
  | feed hfeed =>
    refine ⟨h.feed.move hfeed, ?_, h.idle, h.joining, h.closing⟩
    rw [hfeed.readOut]
    exact h.file
  | start hidle hrunning =>
    refine ⟨h.feed, h.file, fun _ ↦ rfl, fun hc ↦ ?_, fun hclosing ↦ ?_⟩
    · exact absurd (hidle.symm.trans hc) (by decide)
    · exact absurd hclosing (by simp)
  | stop hidle hrunning =>
    refine ⟨h.feed, h.file, fun hc ↦ ControlPoint.noConfusion hc, fun _ ↦ rfl, fun _ ↦ rfl⟩
  | join hjoining hexited =>
    refine ⟨h.feed, h.file, fun _ ↦ h.joining hjoining, fun hc ↦ ControlPoint.noConfusion hc, ?_⟩
    exact fun hclosing ↦ absurd hclosing (by simp)
  | none => exact h

theorem path_sound (h : Path step (init k) as w) : Sound w :=
  h.preserves (fun _ _ _ ht hs ↦ ht.move (step_moves hs)) (sound_init k)

/-- The records offered to the queue are those of the calls of `log`. -/
theorem path_offered (h : Path step (init k) as w) :
    w.feed.offered = as.flatMap LogStep.logged := by
  induction h with
  | nil => rfl
  | snoc _ hs ih =>
    rw [List.flatMap_append, List.flatMap_singleton, ← ih]
    have hmoves := step_moves hs
    generalize LogStep.logged _ = rs at hmoves ⊢
    cases hmoves with
    | feed _ hoffered => exact hoffered
    | write hw =>
      cases hw with
      | test | close | reopen | print | advance | turn => exact (List.append_nil _).symm
    | start | stop | join | none => exact (List.append_nil _).symm

/-! ### What `stop` waits for -/

/-- The records `rs` are in the queue or in the file, and once the writer that `stop` waits for has
left its loop they are in the file. -/
structure Owes (rs : List LogRecord) (w : Logger k) : Prop where
  accepted : rs <+: w.feed.ring.accepted
  paid : w.control = .joining ∧ w.writer ≠ some .exited ∨
    rs.length ≤ w.feed.ring.readOut.length

theorem Owes.move {rs ls : List LogRecord} (h : Owes rs w) (hw : Sound w) (hm : w.Moves ls w') :
    Owes rs w' := by
  cases hm with
  | feed hfeed =>
    refine ⟨h.accepted.trans hfeed.accepted_prefix, ?_⟩
    rw [hfeed.readOut]
    exact h.paid
  | write hwrite =>
    have hopen {p : WriterPoint} (hp : p ≠ .exited) : w.control = .joining ∧ some p ≠ some .exited ∨
        rs.length ≤ w.feed.ring.readOut.length :=
      h.paid.imp_left fun ⟨hc, _⟩ ↦ ⟨hc, fun he ↦ hp (Option.some.inj he)⟩
    cases hwrite with
    | test =>
      refine ⟨h.accepted, hopen ?_⟩
      split
      · simp
      · simp
    | close _ hempty =>
      obtain ⟨q, hq⟩ := hw.feed.holds
      refine ⟨h.accepted, .inr ?_⟩
      show _ ≤ w.feed.ring.readOut.length
      rw [hq.readOut_eq hempty]
      exact h.accepted.length_le
    | reopen => exact ⟨h.accepted, hopen (by simp)⟩
    | print _ hfound hpop =>
      refine ⟨?_, h.paid.imp_right fun hle ↦ ?_⟩
      · show _ <+: Ring.accepted _
        rw [hpop.accepted]
        exact h.accepted
      · rw [hpop.readOut, List.length_append]
        exact Nat.le_add_right_of_le hle
    | advance _ hnot hpop =>
      refine ⟨?_, ?_⟩
      · show _ <+: Ring.accepted _
        rw [hpop.accepted]
        exact h.accepted
      · rw [readOut_same hnot hpop]
        exact h.paid
    | turn _ hnot hpop =>
      refine ⟨?_, ?_⟩
      · show _ <+: Ring.accepted _
        rw [hpop.accepted]
        exact h.accepted
      · rw [readOut_same hnot hpop]
        exact hopen (by simp)
  | start hidle =>
    exact ⟨h.accepted, .inr (h.paid.resolve_left fun hj ↦
      absurd (hidle.symm.trans hj.1) (by decide))⟩
  | stop hidle =>
    exact ⟨h.accepted, .inr (h.paid.resolve_left fun hj ↦
      absurd (hidle.symm.trans hj.1) (by decide))⟩
  | join _ hexited => exact ⟨h.accepted, .inr (h.paid.resolve_left fun hj ↦ hj.2 hexited)⟩
  | none => exact h

/-- When `stop` is called on a running logger, it owes what was accepted. -/
private theorem Sound.owes (h : Sound w) (hrunning : w.running = true) (hs : w.stop = some w') :
    Owes w.feed.ring.accepted w' := by
  have hnot : w.writer ≠ some .exited := by
    intro hexited
    rw [h.closing (.inr hexited)] at hrunning
    exact absurd hrunning (by decide)
  unfold stop at hs
  split at hs
  · rw [if_pos hrunning] at hs
    obtain rfl := Option.some.inj hs
    exact ⟨List.prefix_rfl, .inl ⟨rfl, hnot⟩⟩
  · exact absurd hs (by simp)

/-- In every interleaving, through any number of starts and stops, the file holds the lines of a
prefix of the accepted records. Between two calls every call of `log` has had its record accepted,
in order, or counted as dropped. When a `stop` of the running logger is over, what was accepted
before it was called is in the file, whatever is logged meanwhile or started afterwards. -/
theorem logger_exact (h : Path step (init k) as w) :
    w.file <+: w.feed.ring.accepted.map line ∧
    (w.feed.feeder.Outside →
      w.feed.ring.accepted.Sublist (as.flatMap LogStep.logged) ∧
      (as.flatMap LogStep.logged).length =
        w.feed.ring.accepted.length + w.feed.ring.refused.length ∧
      w.feed.drops = UInt64.ofNat w.feed.ring.refused.length) ∧
    ∀ w₁ bs w', w.running = true → w.stop = some w₁ → Path step w₁ bs w' → w'.control = .idle →
      w.feed.ring.accepted.map line <+: w'.file := by
  have hsound := path_sound h
  obtain ⟨q, hq⟩ := hsound.feed.holds
  constructor
  · rw [hsound.file]
    exact hq.readOut_prefix.map line
  constructor
  · intro houtside
    obtain ⟨hoffered, hdrops⟩ := hsound.feed.outside houtside
    have hlength := congrArg List.length hoffered
    rw [path_offered h, List.length_map, BoundedQueue.length_offers] at hlength
    rw [← path_offered h] at hlength ⊢
    exact ⟨hsound.feed.accepted_sublist, hlength, hdrops⟩
  · intro w₁ bs w' hrunning hstop h' hidle
    obtain ⟨hsound', howes⟩ := h'.preserves (P := fun v ↦ Sound v ∧ Owes w.feed.ring.accepted v)
      (fun _ _ _ hv hs ↦ ⟨hv.1.move (step_moves hs), hv.2.move hv.1 (step_moves hs)⟩)
      ⟨hsound.move (stop_moves hstop), hsound.owes hrunning hstop⟩
    obtain ⟨q', hq'⟩ := hsound'.feed.holds
    have hpaid := howes.paid.resolve_left fun hj ↦ absurd (hidle.symm.trans hj.1) (by decide)
    rw [hsound'.file]
    exact (List.prefix_of_prefix_length_le howes.accepted hq'.readOut_prefix hpaid).map line

/-- What a slot of the queue holds between two stores of `log`. -/
private def halfWritten : LogRecord := ⟨.warn, ['?'], [], 0⟩

/-- In a queue of two slots, `"open"` is logged before the writer starts. -/
private def opens : List LogStep :=
  [.log .info "gate".toList "open".toList 7] ++ List.replicate 7 (.push halfWritten) ++
    [.start, .write]

/-- While `stop` waits for the writer, `"late"` is refused; then the logger is started again. -/
private def reopens : List LogStep :=
  [.log .error "gate".toList "late".toList 9] ++ List.replicate 4 (.push halfWritten) ++
    List.replicate 6 .write ++ [.join, .start]

private def opened : List Char :=
  "\x7b\"ts\":7,\"level\":\"INFO\",\"cat\":\"gate\",\"msg\":\"open\"\x7d\n".toList

theorem logger_exact_reopened : ∃ w w' : Logger 1, w.file = [] ∧ w'.running = true ∧
    w'.file = [opened] ∧ w'.feed.ring.refused.length = 1 ∧
    w.feed.ring.accepted.map line <+: w'.file := by
  obtain ⟨w, hw, hfile, hrunning, w₁, hstop, w', hw', hrunning', hfile', hrefused, hidle⟩ :
      ∃ w ∈ run step opens (init 1), w.file = [] ∧ w.running = true ∧ ∃ w₁ ∈ w.stop,
        ∃ w' ∈ run step reopens w₁, w'.running = true ∧ w'.file = [opened] ∧
          w'.feed.ring.refused.length = 1 ∧ w'.control = .idle := by
    decide +kernel
  obtain ⟨-, -, hstopped⟩ := logger_exact (Path.nil.run hw)
  exact ⟨w, w', hfile, hrunning', hfile', hrefused,
    hstopped w₁ reopens w' hrunning hstop (Path.nil.run hw') hidle⟩

end Logger

end LobEngine
