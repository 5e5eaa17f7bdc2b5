import WalletLedger.App.Services

/-!
# Workers

`app/events`: the outbox publisher and the analytics consumer. Both are `while
True` loops. A publisher iteration keeps nothing but the producer object, so an
iteration is a session of its own, named by the producer it uses. The consumer
keeps its place in the topic, so its process is one looping session.
-/

namespace WalletLedger

open Isolation Prog

variable [Runtime]

namespace OutboxPublisher

/-- `_on_delivery`: errors are collected, successes leave no mark. -/
def onDelivery (errors : List Nat) (reports : List (Option Nat)) : List Nat :=
  errors ++ reports.filterMap id

/-- The message an event is sent as. -/
def message (topic : String) (event : OutboxEvent) : Message :=
  { topic := topic, key := event.aggregateId, value := event.payload, eventType := event.eventType }

/-- Hand every event of the batch to the producer. -/
def produceAll (producer : Nat) (topic : String) : List OutboxEvent → List Nat → Tx (List Nat)
  | [], errors => pure errors
  | event :: events, errors => do
      let reports : List (Option Nat) ← query (.produce producer (message topic event))
      produceAll producer topic events (onDelivery errors reports)

/-- Stamp every event of the batch. -/
def markAll : List OutboxEvent → Tx Unit
  | [] => pure ()
  | event :: events => do
      let _ ← OutboxRepository.markPublished event
      markAll events

/-- Publish one batch. The number of messages still undelivered, which `flush`
returns, is not looked at. -/
def publishBatch (producer : Nat) (topic : String) (batchSize : Nat) : Tx Nat := do
  let events ← OutboxRepository.fetchUnpublished batchSize
  if events = [] then pure 0
  else do
    let errors ← produceAll producer topic events []
    let flushed : List (Option Nat) × Nat ← query (.flush producer)
    let errors := onDelivery errors flushed.1
    raiseIf (errors ≠ []) (.deliveryFailed errors)
    markAll events
    pure events.length

/-- One round of `run_forever`. -/
def iteration (producer : Nat) (topic : String) (batchSize : Nat) : Tx Nat := do
  let work : Tx Nat := do
    let published ← publishBatch producer topic batchSize
    query .commit
    pure published
  match ← work.attempt with
  | .ok published => do
      query .close
      pure published
  | .error _ => do
      query .rollback
      query .close
      pure 0

end OutboxPublisher

namespace AnalyticsConsumer

/-- Handle a record in a session of its own, with every exception logged away, and commit its
offset. -/
def handleRecord (part offset : Nat) (handler : Tx Bool) : Tx Unit := do
  let _ ← handler.attempt
  query .close
  query (.commitOffset part offset)

/-- One round of the loop in `main`. -/
def round : Tx Unit := do
  let msg : Polled ← query .poll
  match msg with
  | .nothing => pure ()
  | .error _ => pure ()
  | .record _ _ .malformed => raise .jsonDecode
  | .record part offset (.foreign txnId) =>
      handleRecord part offset (AnalyticsService.handleForeign txnId)
  | .record part offset (.event payload) =>
      handleRecord part offset (AnalyticsService.handleEvent payload)

/-- The round under `finally: consumer.close()`, which an exception runs on its way out. -/
def guarded (p : Tx Unit) : Tx Unit :=
  p.handle (fun
    | .ok a => .ret a
    | .error e => do
        query .closeConsumer
        raise e)

/-- The process: subscribe, then the first round. -/
def main : Tx Unit := do
  query .subscribe
  guarded round

end AnalyticsConsumer

end WalletLedger
