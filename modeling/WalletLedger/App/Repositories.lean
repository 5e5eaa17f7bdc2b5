import Mathlib.Data.List.Dedup
import Mathlib.Data.List.Sort
import WalletLedger.Db.Statements
import WalletLedger.Isolation.Prog

/-!
# Repositories and the cache

`app/repositories`, one namespace per class. Every method is the statements it
sends, in order. `db.flush()` sends what has been added or changed since the last
flush, so a method that changes an attribute and flushes is the UPDATE it causes.

Reads go to the database: no method is called with its object already loaded in
the session, except after a rollback, when the loaded copy has been expired.
-/

namespace WalletLedger

open Isolation Prog

/-- A program of the application. -/
abbrev Tx (α : Type) := Prog Stmt Stmt.Ans Exn α

/-- Send one statement. -/
def query (q : Stmt) : Tx q.Ans := Prog.perform q

namespace UserRepository

/-- `flush` assigns the id, `refresh` reads the row back. -/
def create (name email passwordHash : String) : Tx User := do
  let user : User ← query (.insertUser name email passwordHash)
  query (.refreshUser user.id)

def getByEmail (email : String) : Tx (Option User) := query (.selectUserByEmail email)

end UserRepository

namespace WalletRepository

def create (userId : Uuid) (currency : String) : Tx Wallet := do
  let wallet : Wallet ← query (.insertWallet userId currency)
  query (.refreshWallet wallet.id)

def getById (walletId : Uuid) : Tx (Option Wallet) := query (.selectWallet walletId)

/-- `SELECT ... FOR UPDATE`. -/
def getWithLock (walletId : Uuid) : Tx (Option Wallet) := query (.selectWalletForUpdate walletId)

/-- `sorted(set(ids))`. -/
def sortedSet (ids : List Uuid) : List Uuid := ids.dedup.insertionSort (· ≤ ·)

/-- Lock the rows of a list one by one. -/
def lockEach : List Uuid → Tx (List (Uuid × Option Wallet))
  | [] => pure []
  | id :: ids => do
      let wallet ← getWithLock id
      let rest ← lockEach ids
      pure ((id, wallet) :: rest)

/-- Lock several rows in ascending id order; missing ids map to `none`. -/
def getForUpdateOrdered (walletIds : List Uuid) : Tx (List (Uuid × Option Wallet)) :=
  lockEach (sortedSet walletIds)

def getByUserAndCurrency (userId : Uuid) (currency : String) : Tx (Option Wallet) :=
  query (.selectWalletByUserAndCurrency userId currency)

end WalletRepository

namespace TransactionRepository

/-- The row is inserted PENDING and read back. -/
def create (type : TransactionType) (currency : String) (idempotencyKey : Option String) :
    Tx Transaction := do
  let txn : Transaction ← query (.insertTransaction type .pending currency idempotencyKey)
  query (.refreshTransaction txn.id)

/-- The UPDATEs a flush sends for changed wallets, in primary-key order. -/
def flushWallets : List Wallet → Tx Unit
  | [] => pure ()
  | w :: ws => do
      query (.updateBalance w.id w.availableBalance)
      flushWallets ws

/-- Changed wallets in the order one flush sends their UPDATEs. -/
def inKeyOrder (dirty : List Wallet) : List Wallet := dirty.insertionSort (fun a b => a.id ≤ b.id)

/-- Set the status and flush. After the UPDATE of the transaction the flush also sends those of
the wallets whose balance the caller has changed meanwhile (`dirty`): one mapper after the other. -/
def markCompleted (dirty : List Wallet) (txn : Transaction) : Tx Transaction := do
  query (.updateStatus txn.id .completed)
  flushWallets (inKeyOrder dirty)
  pure (txn.setStatus .completed)

def getByIdempotencyKey (key : String) : Tx (Option Transaction) :=
  query (.selectTransactionByKey key)

end TransactionRepository

namespace LedgerRepository

def createEntry (transactionId : Uuid) (entryType : EntryType) (amount : Int) (currency : String)
    (walletId : Option Uuid) (systemAccount : Option String) : Tx LedgerEntry :=
  query (.insertEntry transactionId entryType amount currency walletId systemAccount)

/-- Newest-first legs of a wallet, one page of them. -/
def getEntriesForWallet (walletId : Uuid) (limit offset : Nat) : Tx (List LedgerEntry) :=
  query (.selectEntries walletId limit offset)

end LedgerRepository

namespace OutboxRepository

def addEvent (aggregateType : String) (aggregateId : Uuid) (eventType : String)
    (payload : Payload) : Tx OutboxEvent :=
  query (.insertEvent aggregateType aggregateId eventType payload)

/-- Oldest-first batch of events still waiting to be published. -/
def fetchUnpublished (limit : Nat) : Tx (List OutboxEvent) := query (.selectUnpublished limit)

def markPublished (event : OutboxEvent) : Tx OutboxEvent := do
  let t : Time ← query .now
  query (.updatePublished event.id t)
  pure (event.stamp t)

end OutboxRepository

namespace ProcessedEventRepository

def isProcessed (consumer : String) (transactionId : Uuid) : Tx Bool := do
  let row : Option ProcessedEvent ← query (.selectProcessed consumer transactionId)
  pure row.isSome

def markProcessed (consumer : String) (transactionId : Uuid) : Tx Unit :=
  query (.insertProcessed consumer transactionId)

end ProcessedEventRepository

namespace TransactionStatRepository

/-- Read the row, or start one at zero; add; flush. The flush writes the sums
computed here, as an INSERT for a new row and an UPDATE for a loaded one. -/
def increment (currency type : String) (amount : Int) : Tx Unit := do
  let stat : Option TransactionStat ← query (.selectStat currency type)
  match stat with
  | none => query (.insertStat currency type (0 + 1) (0 + amount))
  | some stat => query (.updateStat currency type (stat.count + 1) (stat.totalAmount + amount))

end TransactionStatRepository

/-! ## The balance cache

`app/cache/redis_cache.py`. Whatever the client raises is logged away: a failed
`get` is a miss, a failed `set` or `invalidate` is nothing.
-/

namespace BalanceCache

def get (walletId : Uuid) : Tx (Option CachedBalance) := do
  match ← (query (.cacheGet walletId)).attempt with
  | .ok payload => pure payload
  | .error _ => pure none

def set (walletId : Uuid) (payload : CachedBalance) : Tx Unit := do
  let _ ← (query (.cacheSetex walletId payload)).attempt
  pure ()

/-- One `delete` with all the keys, if there are any. -/
def invalidate (walletIds : List Uuid) : Tx Unit :=
  if walletIds = [] then pure ()
  else do
    let _ ← (query (.cacheDelete walletIds)).attempt
    pure ()

end BalanceCache

end WalletLedger
