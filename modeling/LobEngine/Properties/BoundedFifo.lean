import LobEngine.Core.SpscQueue
import LobEngine.Gateway.EventDispatcher
import LobEngine.Gateway.InboundQueue

/-!
# The rings are bounded queues

`SpscQueue`, the inbound queue of the gateway and the queue of the event dispatcher run the same
protocol, and each of them is a queue of one item less than it has slots. What the dispatcher
publishes is what was produced less the drops that it counts.
-/

namespace LobEngine

open RingProtocol Interleaving

namespace EventDispatcher

/-- Each produced event has an answer of the queue. The accepted ones have been sent, in order,
and the others counted. -/
def Published (dump : Json → String) {k : Fin 32} (produced : List ExchangeEvent)
    (w : EventDispatcher k) : Prop :=
  ∃ offers : List (ExchangeEvent × Bool), produced = offers.map Prod.fst ∧
    w.sent = (offers.filter Prod.snd).map (fun offer ↦ serializeEvent dump offer.1) ∧
    w.feed.drops = UInt64.ofNat (offers.filter (!·.2)).length

variable {dump : Json → String} {k : Fin 32} {w w' : EventDispatcher k}
  {as bs : List DispatcherStep}

/-- Between two calls every attempt is accepted or counted as dropped. -/
private theorem attempts (h : Path (step dump) (started k) as w) (hout : w.feed.feeder.Outside) :
    (as.flatMap DispatcherStep.enqueued).length =
      w.feed.ring.accepted.length + w.feed.ring.refused.length ∧
    w.feed.drops = UInt64.ofNat w.feed.ring.refused.length := by
  obtain ⟨hoffered, hdrops⟩ := (path_sound h).feed.outside hout
  have hlength := congrArg List.length hoffered
  rw [path_offered h, List.length_map, BoundedQueue.length_offers] at hlength
  exact ⟨hlength, hdrops⟩

/-- If `stop` is called after the exchange thread has ended, the published stream is the produced
one less the counted drops. -/
theorem published (h : Path (step dump) (started k) as w) (hf : w.feed.feeder = .finished)
    (hc : w.publisher.stopper = .calling) (h' : Path (step dump) w bs w')
    (hr : w'.publisher.stopper = .returned) :
    w'.Published dump ((as ++ bs).flatMap DispatcherStep.enqueued) := by
  obtain ⟨hfinished, hsent⟩ := sent_all h hf hc h' hr
  have hall := h.trans h'
  obtain ⟨hoffered, hdrops⟩ := (path_sound hall).feed.outside (by rw [hfinished]; trivial)
  refine ⟨BoundedQueue.offers w'.feed.ring.history, ?_, ?_, ?_⟩
  · rw [← path_offered hall, hoffered]
  · rw [hsent, Ring.accepted, BoundedQueue.accepted_eq_offers, List.map_map]
    rfl
  · rw [hdrops, Ring.refused, BoundedQueue.refused_eq_offers, List.length_map]

end EventDispatcher

/-- In every interleaving of the steps of the two threads each ring is a bounded queue. What is
more, the dispatcher accounts for every event, and its published stream is complete. -/
theorem spsc_rings_refine_fifo :
    (∀ (α : Type) (k : Fin 64) (x : α) (as : List (SpscQueueStep α)) (q : SpscQueue α k),
      Path SpscQueue.step (Ring.init k x : SpscQueue α k) as q → q.Fifo) ∧
    (∀ (k : Fin 32) (as : List InboundStep) (q : InboundQueue k),
      Path InboundQueue.step (Feed.init k {}) as q → q.ring.Fifo) ∧
    ∀ (dump : Json → String) (k : Fin 32) (as : List DispatcherStep) (w : EventDispatcher k),
      Path (EventDispatcher.step dump) (.started k) as w →
        w.feed.ring.Fifo ∧
        (w.feed.feeder.Outside →
          (as.flatMap DispatcherStep.enqueued).length =
            w.feed.ring.accepted.length + w.feed.ring.refused.length ∧
          w.feed.drops = UInt64.ofNat w.feed.ring.refused.length) ∧
        ∀ bs w', w.feed.feeder = .finished → w.publisher.stopper = .calling →
          Path (EventDispatcher.step dump) w bs w' → w'.publisher.stopper = .returned →
            w'.sent = w'.feed.ring.accepted.map (serializeEvent dump) ∧
            w'.Published dump ((as ++ bs).flatMap DispatcherStep.enqueued) := by
  refine ⟨fun _ _ _ _ _ h ↦ SpscQueue.path_fifo h, fun k as q h ↦ ?_, fun dump k as w h ↦ ?_⟩
  · obtain ⟨items, hq⟩ := (InboundQueue.path_sound h).holds
    exact hq.fifo
  · obtain ⟨items, hq⟩ := (EventDispatcher.path_sound h).feed.holds
    refine ⟨hq.fifo, EventDispatcher.attempts h, fun bs w' hf hc h' hr ↦ ⟨?_, ?_⟩⟩
    · exact (EventDispatcher.sent_all h hf hc h' hr).2
    · exact EventDispatcher.published h hf hc h' hr

/-- How a cancelled order is published. -/
private def canceledJson : Json → String := fun _ ↦
  "\x7b\"order_id\":1,\"remaining_qty\":5,\"symbol\":\"STOCK_1\",\"ts\":0,\"type\":\"CANCELED\"\x7d"

private def canceledOrder : ExchangeEvent :=
  .orderCanceled { symbol := "STOCK_1", orderId := 1, remainingQty := 5 }

/-- A batch of two events for a queue of two slots, which has room for one; then the exchange
thread ends. -/
private def cutBatch : List DispatcherStep :=
  [.enqueue [canceledOrder, canceledOrder]] ++ List.replicate 11 (.push (.orderAccepted {})) ++
    [.finish]

/-- The publisher looks at the flag before `stop` is called, and takes the event after it. -/
private def stopsEarly : List DispatcherStep :=
  [.publish, .stop] ++ List.replicate 8 .publish ++ [.stop]

theorem spsc_rings_refine_fifo_cutBatch : ∃ w' : EventDispatcher 1, w'.feed.drops = 1 ∧
    w'.sent.length = 1 ∧
      w'.Published canceledJson ((cutBatch ++ stopsEarly).flatMap DispatcherStep.enqueued) := by
  obtain ⟨w, hw, hfinished, hcalling, w', hw', hr, hdrops, hsent⟩ :
      ∃ w ∈ run (EventDispatcher.step canceledJson) cutBatch (.started 1),
        w.feed.feeder = .finished ∧ w.publisher.stopper = .calling ∧
        ∃ w' ∈ run (EventDispatcher.step canceledJson) stopsEarly w,
          w'.publisher.stopper = .returned ∧ w'.feed.drops = 1 ∧ w'.sent.length = 1 := by
    decide +kernel
  obtain ⟨-, -, hdispatcher⟩ := spsc_rings_refine_fifo
  obtain ⟨-, -, hpublished⟩ := hdispatcher canceledJson 1 cutBatch w (Path.nil.run hw)
  have hrest := hpublished stopsEarly w' hfinished hcalling (Path.nil.run hw') hr
  exact ⟨w', hdrops, hsent, hrest.2⟩

end LobEngine
