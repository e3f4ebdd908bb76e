import LobEngine.Gateway.ReplayLogger
import LobEngine.Lib.JsonText

/-!
# The lines of the replay log

`src/gateway/replay_logger.hpp:20–21` and `README.md:236` promise one JSON object a line. The
encoder puts a topic in front of the object, so no line is the text of one.
-/

namespace LobEngine

open JsonText

/-- The line is the text of one JSON object, without a line break in it, and the event can be
read from the object. -/
def LoggedAsObject (decode : Value → Option ExchangeEvent) (ev : ExchangeEvent) (line : String) :
    Prop :=
  ∃ members, Text line (.object members) ∧ '\n' ∉ line.toList ∧
    decode (.object members) = some ev

/-- Every line begins with its topic, and so neither with a blank nor with a brace. -/
private theorem serializeEvent_head (dump : Json → String) (ev : ExchangeEvent) :
    ∃ c, (serializeEvent dump ev).toList.head? = some c ∧ ¬(IsBlank c ∨ c = '\x7b') := by
  cases ev with
  | orderAccepted e => exact ⟨'A', by simp [serializeEvent], by decide⟩
  | orderRejected e => exact ⟨'R', by simp [serializeEvent], by decide⟩
  | orderCanceled e => exact ⟨'C', by simp [serializeEvent], by decide⟩
  | tradeExecuted e => exact ⟨'T', by simp [serializeEvent], by decide⟩
  | bookUpdated e => exact ⟨'B', by simp [serializeEvent], by decide⟩
  | snapshot e => exact ⟨'S', by simp [serializeEvent], by decide⟩

private theorem serializeEvent_not_object (dump : Json → String) (ev : ExchangeEvent)
    (members : List (String × Value)) : ¬Text (serializeEvent dump ev) (.object members) := by
  intro htext
  obtain ⟨c, hc, hno⟩ := serializeEvent_head dump ev
  obtain ⟨d, hd, hblank⟩ := htext.head
  obtain rfl := Option.some.inj (hc.symm.trans hd)
  exact hno hblank

/-- The line that `log` queues for an event is not a JSON object, whatever the event is. -/
theorem replay_log_not_ndjson (dump : Json → String) (decode : Value → Option ExchangeEvent)
    (k : Fin 32) (w w' : ReplayLogger k) (ev : ExchangeEvent) (h : w.log dump ev = some w') :
    ∃ line, w'.feed.offered = w.feed.offered ++ [line] ∧ ¬LoggedAsObject decode ev line := by
  obtain ⟨feed, hfeed, rfl⟩ := Option.map_eq_some_iff.mp h
  refine ⟨serializeEvent dump ev, RingProtocol.Feed.call_offered hfeed, ?_⟩
  rintro ⟨members, htext, -, -⟩
  exact serializeEvent_not_object dump ev members htext

private def canceledInStock1 : ExchangeEvent :=
  .orderCanceled { symbol := "STOCK_1", orderId := 1, remainingQty := 5 }

/-- How the object of this event is printed. -/
private def printed : Json → String := fun _ ↦
  "\x7b\"order_id\":1,\"remaining_qty\":5,\"symbol\":\"STOCK_1\",\"ts\":0,\"type\":\"CANCELED\"\x7d"

theorem replay_log_not_ndjson_canceled :
    ∃ w' : ReplayLogger 1, ∃ line, w'.feed.offered = [line] ∧
      ¬LoggedAsObject (fun _ ↦ canceledInStock1) canceledInStock1 line := by
  obtain ⟨w', hlog⟩ : ∃ w', (ReplayLogger.started 1).log printed canceledInStock1 = some w' :=
    ⟨_, rfl⟩
  exact ⟨w', replay_log_not_ndjson _ _ 1 _ w' canceledInStock1 hlog⟩

/-- However its object is printed and read, the line of this event is no JSON object. -/
theorem canceled_line_not_object : ¬∃ (dump : Json → String)
    (decode : Value → Option ExchangeEvent),
      LoggedAsObject decode canceledInStock1 (serializeEvent dump canceledInStock1) := by
  rintro ⟨dump, decode, members, htext, -, -⟩
  exact serializeEvent_not_object dump _ members htext

end LobEngine
