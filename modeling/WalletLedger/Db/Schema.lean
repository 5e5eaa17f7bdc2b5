import WalletLedger.Isolation.Table

/-!
# Rows and request bodies

The tables of `app/db/models` and the bodies of `app/schemas`, column for
column. A column no code path reads is left out: `created_at` of transactions,
`processed_at`, and `updated_at` of the rollup.

A `uuid.UUID` is its 128-bit value, ordered as Python orders it; nothing depends
on the bound. Timestamps are ticks. `String(n)` and `BIGINT` limits are not part
of the types: the database checks them when a row is written, so they are checked
there (`Db/Statements.lean`).
-/

namespace WalletLedger

/-- `uuid.UUID`, as its integer value. -/
abbrev Uuid := Nat

/-- A timestamp. -/
abbrev Time := Nat

/-! ## Library functions the code calls -/

/--
The parts of the Python runtime the services lean on without containing them:
Unicode's full upper-case mapping, which may map one character to several, and
the password hasher with its salt.
-/
class Runtime where
  /-- `str.upper` on one character. -/
  upperChar : Char → List Char
  /-- `PasswordHash.hash`, with the random salt it draws. -/
  hashPassword : String → Nat → String

/-- `str.upper`: the full case mapping, character by character. -/
def upper [Runtime] (s : String) : String := String.ofList (s.toList.flatMap Runtime.upperChar)

/-! ## Tables -/

/-- `users`. -/
structure User where
  id : Uuid
  name : String
  email : String
  passwordHash : String
  deriving DecidableEq, Repr

/-- `wallets`. -/
structure Wallet where
  id : Uuid
  userId : Uuid
  currency : String
  availableBalance : Int
  lockedBalance : Int
  createdAt : Time
  updatedAt : Time
  deriving DecidableEq, Repr

/-- `TransactionType`. -/
inductive TransactionType where
  | deposit
  | transfer
  | withdrawal
  deriving DecidableEq, Repr

/-- The string an enum member is stored and sent as. -/
def TransactionType.value : TransactionType → String
  | .deposit => "DEPOSIT"
  | .transfer => "TRANSFER"
  | .withdrawal => "WITHDRAWAL"

/-- `TransactionStatus`. -/
inductive TransactionStatus where
  | pending
  | completed
  | failed
  deriving DecidableEq, Repr

/-- The string an enum member is stored and sent as. -/
def TransactionStatus.value : TransactionStatus → String
  | .pending => "PENDING"
  | .completed => "COMPLETED"
  | .failed => "FAILED"

/-- `transactions`: the header of one money movement. -/
structure Transaction where
  id : Uuid
  type : TransactionType
  status : TransactionStatus
  currency : String
  idempotencyKey : Option String
  deriving DecidableEq, Repr

/-- `EntryType`: the direction of a leg. -/
inductive EntryType where
  | credit
  | debit
  deriving DecidableEq, Repr

/-- `ledger_entries`: one leg of a transaction, on a wallet or a system account. -/
structure LedgerEntry where
  id : Uuid
  seq : Nat
  transactionId : Uuid
  entryType : EntryType
  amount : Int
  currency : String
  walletId : Option Uuid
  systemAccount : Option String
  createdAt : Time
  deriving DecidableEq, Repr

/-- The JSON payload of a `transaction.completed` event. Ids are kept as ids:
`str` and `uuid.UUID` are inverse to each other. -/
structure Payload where
  transactionId : Uuid
  type : String
  status : String
  currency : String
  amount : Int
  walletId : Uuid
  counterpartyWalletId : Option Uuid
  occurredAt : Time
  deriving DecidableEq, Repr

/-- `outbox_events`. -/
structure OutboxEvent where
  id : Uuid
  aggregateType : String
  aggregateId : Uuid
  eventType : String
  payload : Payload
  createdAt : Time
  publishedAt : Option Time
  deriving DecidableEq, Repr

/-- `processed_events`: the inbox of a consumer. -/
structure ProcessedEvent where
  consumer : String
  transactionId : Uuid
  deriving DecidableEq, Repr

/-- The primary key of `processed_events`. -/
def ProcessedEvent.key (p : ProcessedEvent) : String × Uuid := (p.consumer, p.transactionId)

/-- `transaction_stats`: the rollup, one row for each currency and type. -/
structure TransactionStat where
  currency : String
  type : String
  count : Int
  totalAmount : Int
  deriving DecidableEq, Repr

/-- The primary key of `transaction_stats`. -/
def TransactionStat.key (r : TransactionStat) : String × String := (r.currency, r.type)

/-! ## Request bodies

What pydantic lets through: a positive amount, a currency of three characters.
-/

/-- `UserCreate`. -/
structure UserCreate where
  name : String
  email : String
  password : String
  deriving DecidableEq

/-- `WalletCreate`. -/
structure WalletCreate where
  currency : String
  currency_length : currency.length = 3
  deriving DecidableEq

/-- `DepositRequest`. -/
structure DepositRequest where
  amount : Int
  currency : String
  amount_pos : 0 < amount
  currency_length : currency.length = 3
  deriving DecidableEq

/-- `TransferRequest`. -/
structure TransferRequest where
  recipientWalletId : Uuid
  amount : Int
  currency : String
  amount_pos : 0 < amount
  currency_length : currency.length = 3
  deriving DecidableEq

/-- `WithdrawalRequest`. -/
structure WithdrawalRequest where
  amount : Int
  currency : String
  amount_pos : 0 < amount
  currency_length : currency.length = 3
  deriving DecidableEq

/-! ## Responses -/

/-- `BalanceRead`. -/
structure BalanceRead where
  id : Uuid
  currency : String
  availableBalance : Int
  lockedBalance : Int
  updatedAt : Time
  deriving DecidableEq, Repr

/-- What `BalanceRead` takes from a wallet. -/
def BalanceRead.ofWallet (w : Wallet) : BalanceRead :=
  ⟨w.id, w.currency, w.availableBalance, w.lockedBalance, w.updatedAt⟩

/-- An entry of the balance cache. The JSON text is kept as the object it decodes to. -/
structure CachedBalance where
  id : Uuid
  userId : Uuid
  currency : String
  availableBalance : Int
  lockedBalance : Int
  updatedAt : Time
  deriving DecidableEq, Repr

/-- What the balance route caches of a wallet. -/
def CachedBalance.ofWallet (w : Wallet) : CachedBalance :=
  ⟨w.id, w.userId, w.currency, w.availableBalance, w.lockedBalance, w.updatedAt⟩

/-- What the balance route answers from a cached entry. -/
def CachedBalance.read (c : CachedBalance) : BalanceRead :=
  ⟨c.id, c.currency, c.availableBalance, c.lockedBalance, c.updatedAt⟩

/-- `TransactionHistoryItem`. -/
structure TransactionHistoryItem where
  transactionId : Uuid
  entryType : EntryType
  amount : Int
  currency : String
  createdAt : Time
  deriving DecidableEq, Repr

/-- What the history shows of a leg. -/
def TransactionHistoryItem.ofEntry (e : LedgerEntry) : TransactionHistoryItem :=
  ⟨e.transactionId, e.entryType, e.amount, e.currency, e.createdAt⟩

/-- `TransactionHistory`. -/
structure TransactionHistory where
  items : List TransactionHistoryItem
  limit : Nat
  offset : Nat
  deriving DecidableEq, Repr

/-- `Discrepancy`. -/
structure Discrepancy where
  walletId : Uuid
  /-- What the wallet row says. -/
  cachedBalance : Int
  /-- What the ledger says it should be. -/
  ledgerBalance : Int
  deriving DecidableEq, Repr

/-- How far the wallet row is off. -/
def Discrepancy.diff (d : Discrepancy) : Int := d.cachedBalance - d.ledgerBalance

/-- `ReconciliationReport`. -/
structure ReconciliationReport where
  walletsChecked : Nat
  discrepancies : List Discrepancy
  deriving DecidableEq, Repr

/-- `not self.discrepancies`. -/
def ReconciliationReport.ok (report : ReconciliationReport) : Bool := report.discrepancies.isEmpty

/-! ## Exceptions -/

/-- What SQLAlchemy raises when a statement fails. -/
inductive DbError where
  /-- `IntegrityError`: a unique, check or foreign-key constraint. -/
  | integrity
  /-- `DataError`: a value that does not fit its column. -/
  | data
  /-- `OperationalError`: the connection or the server. -/
  | operational
  /-- `StaleDataError`: an UPDATE or refresh whose row is gone. -/
  | stale
  deriving DecidableEq, Repr

/-- The exceptions of the services and of what they call. -/
inductive Exn where
  | walletAlreadyExists (currency : String)
  | walletNotFound (walletId : Uuid)
  | walletAccessDenied (walletId : Uuid)
  | currencyMismatch (message : String)
  | insufficientFunds (walletId : Uuid)
  | sameWalletTransfer (walletId : Uuid)
  | recipientNotFound (walletId : Uuid)
  | emailAlreadyExists (email : String)
  /-- `RuntimeError("kafka delivery failed: ...")`, with the reported errors. -/
  | deliveryFailed (errors : List Nat)
  /-- `json.loads` on a message that is not JSON. -/
  | jsonDecode
  /-- `KeyError`, `ValueError` or the like, of reading an event off JSON that is none. -/
  | payload
  /-- `AttributeError`: `None` has no `available_balance`. -/
  | attribute
  /-- A client-library error of the broker connection. -/
  | kafka (code : Nat)
  /-- An error of the cache client. -/
  | cache
  /-- `HTTPException`. -/
  | http (statusCode : Nat) (detail : String)
  | db (e : DbError)
  deriving DecidableEq, Repr

end WalletLedger
