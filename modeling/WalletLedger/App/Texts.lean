import WalletLedger.App.Notifications
import WalletLedger.App.Workers
import WalletLedger.Wire.DateTime
import WalletLedger.Wire.Json

/-!
# Texts

What leaves the process is text: the payload of an event, first in a JSONB column and then on
the topic, an entry of the balance cache, a line of the log. These are the functions that write
the texts and the ones that take them apart again, where everywhere else in the model a payload
is a record and a cached balance too.

A tick is a microsecond, counted from the first of January of year 1, and the clocks are on UTC.
What a reader does with a value it never meets in these texts (`int` of a string, `str` of a
list) is left out: `none`.
-/

namespace WalletLedger

open Wire

/-- `isoformat` as a JSON string. -/
def Time.json (t : Time) : Json := .str (String.ofList (isoformat t))

/-- `str(id)` as a JSON string. -/
def Uuid.json (id : Uuid) : Json := .str (uuidStr id)

/-! ## Events -/

namespace LedgerService

/-- The dictionary `_record_event` puts into the outbox. -/
def eventPayload (p : Payload) : List (String × Json) :=
  [("transaction_id", Uuid.json p.transactionId),
   ("type", .str p.type),
   ("status", .str p.status),
   ("currency", .str p.currency),
   ("amount", .int p.amount),
   ("wallet_id", Uuid.json p.walletId),
   ("counterparty_wallet_id", (p.counterpartyWalletId.map Uuid.json).getD .null),
   ("occurred_at", Time.json p.occurredAt)]

end LedgerService

namespace OutboxPublisher

/-- The value of the message: `json.dumps(event.payload)`. -/
def value (payload : Json) : List Char := dumps payload

end OutboxPublisher

namespace AnalyticsService

/-- What `handle_event` takes from a payload: the transaction, the currency, the type,
the amount. -/
def arguments (payload : Json) : Option (Uuid × String × String × Int) :=
  match payload.get? "transaction_id", payload.get? "currency", payload.get? "type",
    payload.get? "amount" with
  | some (.str id), some (.str currency), some (.str type), some (.int amount) =>
      (uuidOfStr id).map fun id => (id, currency, type, amount)
  | _, _, _, _ => none

end AnalyticsService

namespace NotificationConsumer

/-- `payload.get(key)`. -/
def get (payload : Json) (key : String) : Json := (payload.get? key).getD .null

/-- The key events are told apart by. -/
def notice (payload : Json) : Option Notifications.Notice :=
  match get payload "transaction_id" with
  | .str id => some ⟨some id⟩
  | .null => some ⟨none⟩
  | _ => none

/-- `'%s' % v`. -/
def show? : Json → Option String
  | .null => some "None"
  | .bool b => some (if b then "True" else "False")
  | .int n => some (String.ofList (intText n))
  | .str s => some s
  | _ => none

/-- The line `_default_handler` logs. -/
def defaultHandler (payload : Json) : Option String :=
  match show? (get payload "type"), show? (get payload "status"), show? (get payload "amount"),
      show? (get payload "currency"), show? (get payload "wallet_id") with
  | some type, some status, some amount, some currency, some walletId =>
      some ("NOTIFY: " ++ type ++ " " ++ status ++ " of " ++ amount ++ " minor units (" ++ currency
        ++ ") on wallet " ++ walletId)
  | _, _, _, _, _ => none

end NotificationConsumer

/-! ## The balance cache -/

namespace BalanceCache

/-- `_key`. -/
def key (walletId : Uuid) : String := "wallet:balance:" ++ uuidStr walletId

/-- The dictionary the balance route caches. -/
def entry (c : CachedBalance) : Json :=
  .obj [("id", Uuid.json c.id),
    ("user_id", Uuid.json c.userId),
    ("currency", .str c.currency),
    ("available_balance", .int c.availableBalance),
    ("locked_balance", .int c.lockedBalance),
    ("updated_at", Time.json c.updatedAt)]

/-- `json.loads(raw) if raw else None`. -/
def decode (raw : List Char) : Option Json := if raw = [] then none else loads raw

end BalanceCache

/-- How `BalanceRead` reads its fields from strings. -/
structure FieldReaders where
  uuid : String → Option Uuid
  datetime : String → Option Time

namespace Routes

/-- `cached["user_id"] != str(current_user.id)`. -/
def notOwner (cached : Json) (currentUser : Uuid) : Option Bool :=
  match cached.get? "user_id" with
  | some (.str id) => some (decide (id ≠ uuidStr currentUser))
  | _ => none

/-- The answer from a cached entry. -/
def readCached (R : FieldReaders) (cached : Json) : Option BalanceRead :=
  match cached.get? "id", cached.get? "currency", cached.get? "available_balance",
    cached.get? "locked_balance",
      cached.get? "updated_at" with
  | some (.str id), some (.str currency), some (.int available), some (.int locked),
      some (.str updatedAt) =>
      (R.uuid id).bind fun id => (R.datetime updatedAt).map fun t =>
        ⟨id, currency, available, locked, t⟩
  | _, _, _, _, _ => none

end Routes

/-! ## The log -/

/-- A `LogRecord`, with the attributes given as `extra`. -/
structure LogRecord where
  ts : String
  level : String
  logger : String
  message : String
  /-- The attribute `request_id`. -/
  requestId : Option String := none
  attributes : List (String × Json) := []
  /-- `formatException`, where there is one. -/
  excInfo : Option String := none

namespace JsonFormatter

/-- `_EXTRA_FIELDS`. -/
def extraFields : List String := ["method", "path", "status", "duration_ms"]

/-- `getattr(record, "request_id", None) or request_id_var.get()`, where it is true. -/
def requestId (record : LogRecord) (context : Option String) : Option String :=
  if LedgerService.truthy record.requestId then record.requestId
  else if LedgerService.truthy context then context
  else none

/-- The dictionary of a line; its keys are set one after another, and none twice. -/
def payload (record : LogRecord) (context : Option String) : List (String × Json) :=
  [("ts", .str record.ts), ("level", .str record.level), ("logger", .str record.logger),
      ("message", .str record.message)]
    ++ ((requestId record context).toList.map (fun id => ("request_id", .str id))
    ++ (extraFields.filterMap (fun field => (record.attributes.lookup field).map
      (fun v => (field, v)))
    ++ record.excInfo.toList.map (fun text => ("exc_info", .str text))))

/-- One line of the log. -/
def format (record : LogRecord) (context : Option String) : List Char :=
  dumps (.obj (payload record context))

end JsonFormatter

end WalletLedger
