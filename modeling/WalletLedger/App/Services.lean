import WalletLedger.App.Repositories

/-!
# Services

`app/services`, method by method and line by line. Each service method is one
unit of work: it commits at most once, and whatever it raises before that leaves
the session to be closed, which rolls back.

`if x: raise E` is `raiseIf`. `try: self.db.commit() except IntegrityError` is a
match on the outcome of the commit, and only of the commit: an exception of an
earlier flush leaves the method.
-/

namespace WalletLedger

open Isolation Prog

variable [Runtime]

namespace UserService

def register (data : UserCreate) : Tx User := do
  let existing ← UserRepository.getByEmail data.email
  raiseIf (existing.isSome = true) (.emailAlreadyExists data.email)
  let salt : Nat ← query .salt
  let user ← UserRepository.create data.name data.email (Runtime.hashPassword data.password salt)
  match ← (query .commit).attempt with
  | .ok () => query (.refreshUser user.id)
  | .error (.db .integrity) => do
      query .rollback
      raise (.emailAlreadyExists data.email)
  | .error e => raise e

end UserService

namespace WalletService

def createWallet (ownerId : Uuid) (data : WalletCreate) : Tx Wallet := do
  let currency := upper data.currency
  let existing ← WalletRepository.getByUserAndCurrency ownerId currency
  raiseIf (existing.isSome = true) (.walletAlreadyExists currency)
  let wallet ← WalletRepository.create ownerId currency
  match ← (query .commit).attempt with
  | .ok () => query (.refreshWallet wallet.id)
  | .error (.db .integrity) => do
      query .rollback
      raise (.walletAlreadyExists currency)
  | .error e => raise e

def getBalance (walletId requesterId : Uuid) : Tx Wallet := do
  let some wallet ← WalletRepository.getById walletId | raise (.walletNotFound walletId)
  raiseIf (wallet.userId ≠ requesterId) (.walletAccessDenied walletId)
  pure wallet

end WalletService

namespace LedgerService

/-- The system account on the other side of deposits and withdrawals. -/
def systemAccountFunding : String := "EXTERNAL_FUNDING"

/-- Python's truth of `idempotency_key: str | None`. -/
def truthy : Option String → Bool
  | none => false
  | some k => decide (k ≠ "")

/-- Write the domain event into the outbox, in the caller's transaction. -/
def recordEvent (txn : Transaction) (amount : Int) (walletId : Uuid)
    (counterpartyWalletId : Option Uuid) : Tx Unit := do
  let t : Time ← query .now
  let _ ← OutboxRepository.addEvent "transaction" txn.id "transaction.completed"
    { transactionId := txn.id
      type := txn.type.value
      status := txn.status.value
      currency := txn.currency
      amount := amount
      walletId := walletId
      counterpartyWalletId := counterpartyWalletId
      occurredAt := t }
  pure ()

/-- The replay of a key that is already bound: the transaction and the path wallet. -/
def replay (idempotencyKey : Option String) (walletId : Uuid) :
    Tx (Option (Transaction × Option Wallet)) :=
  if truthy idempotencyKey then do
    let existing ← TransactionRepository.getByIdempotencyKey (idempotencyKey.getD "")
    match existing with
    | some txn => do
        let wallet ← WalletRepository.getById walletId
        pure (some (txn, wallet))
    | none => pure none
  else pure none

/-- The commit of a keyed operation, with the conflict handler around it. -/
def commitKeyed (txn : Transaction) (idempotencyKey : Option String) (walletId : Uuid) :
    Tx (Transaction × Option Wallet) := do
  match ← (query .commit).attempt with
  | .ok () => do
      let wallet : Wallet ← query (.refreshWallet walletId)
      let txn : Transaction ← query (.refreshTransaction txn.id)
      pure (txn, some wallet)
  | .error (.db .integrity) => do
      query .rollback
      match ← replay idempotencyKey walletId with
      | some r => pure r
      | none => raise (.db .integrity)
  | .error e => raise e

def deposit (walletId requesterId : Uuid) (data : DepositRequest) :
    Tx (Transaction × Option Wallet) := do
  let some wallet ← WalletRepository.getWithLock walletId | raise (.walletNotFound walletId)
  raiseIf (wallet.userId ≠ requesterId) (.walletAccessDenied walletId)
  raiseIf (wallet.currency ≠ upper data.currency)
    (.currencyMismatch ("Wallet currency " ++ wallet.currency ++ " != " ++ upper data.currency))
  let amount := data.amount
  let txn ← TransactionRepository.create .deposit wallet.currency none
  let _ ← LedgerRepository.createEntry txn.id .credit amount wallet.currency (some wallet.id) none
  let _ ← LedgerRepository.createEntry txn.id .debit amount wallet.currency none
    (some systemAccountFunding)
  let wallet := { wallet with availableBalance := wallet.availableBalance + amount }
  let txn ← TransactionRepository.markCompleted [wallet] txn
  recordEvent txn amount wallet.id none
  query .commit
  let wallet : Wallet ← query (.refreshWallet wallet.id)
  let txn : Transaction ← query (.refreshTransaction txn.id)
  pure (txn, some wallet)

/-- Move money between two wallets. Returns the transaction and the sender's wallet. -/
def transfer (senderWalletId requesterId : Uuid) (data : TransferRequest)
    (idempotencyKey : Option String) : Tx (Transaction × Option Wallet) := do
  let recipientWalletId := data.recipientWalletId
  raiseIf (senderWalletId = recipientWalletId) (.sameWalletTransfer senderWalletId)
  match ← replay idempotencyKey senderWalletId with
  | some r => pure r
  | none => do
      let locked ← WalletRepository.getForUpdateOrdered [senderWalletId, recipientWalletId]
      let some sender := (locked.lookup senderWalletId).join
        | raise (.walletNotFound senderWalletId)
      raiseIf (sender.userId ≠ requesterId) (.walletAccessDenied senderWalletId)
      let some recipient := (locked.lookup recipientWalletId).join
        | raise (.recipientNotFound recipientWalletId)
      raiseIf (sender.currency ≠ upper data.currency)
        (.currencyMismatch
          ("Sender wallet currency " ++ sender.currency ++ " != " ++ upper data.currency))
      raiseIf (recipient.currency ≠ sender.currency)
        (.currencyMismatch
          ("Recipient wallet currency " ++ recipient.currency ++ " != " ++ sender.currency))
      let amount := data.amount
      raiseIf (sender.availableBalance < amount) (.insufficientFunds senderWalletId)
      let txn ← TransactionRepository.create .transfer sender.currency idempotencyKey
      let _ ← LedgerRepository.createEntry txn.id .debit amount sender.currency
        (some sender.id) none
      let _ ← LedgerRepository.createEntry txn.id .credit amount sender.currency
        (some recipient.id) none
      let sender := { sender with availableBalance := sender.availableBalance - amount }
      let recipient := { recipient with availableBalance := recipient.availableBalance + amount }
      let txn ← TransactionRepository.markCompleted [sender, recipient] txn
      recordEvent txn amount sender.id (some recipient.id)
      commitKeyed txn idempotencyKey senderWalletId

/-- Take money out of a wallet to the external world. -/
def withdraw (walletId requesterId : Uuid) (data : WithdrawalRequest)
    (idempotencyKey : Option String) : Tx (Transaction × Option Wallet) := do
  match ← replay idempotencyKey walletId with
  | some r => pure r
  | none => do
      let some wallet ← WalletRepository.getWithLock walletId | raise (.walletNotFound walletId)
      raiseIf (wallet.userId ≠ requesterId) (.walletAccessDenied walletId)
      raiseIf (wallet.currency ≠ upper data.currency)
        (.currencyMismatch
          ("Wallet currency " ++ wallet.currency ++ " != " ++ upper data.currency))
      let amount := data.amount
      raiseIf (wallet.availableBalance < amount) (.insufficientFunds walletId)
      let txn ← TransactionRepository.create .withdrawal wallet.currency idempotencyKey
      let _ ← LedgerRepository.createEntry txn.id .debit amount wallet.currency
        (some wallet.id) none
      let _ ← LedgerRepository.createEntry txn.id .credit amount wallet.currency none
        (some systemAccountFunding)
      let wallet := { wallet with availableBalance := wallet.availableBalance - amount }
      let txn ← TransactionRepository.markCompleted [wallet] txn
      recordEvent txn amount wallet.id none
      commitKeyed txn idempotencyKey walletId

end LedgerService

namespace AnalyticsService

/-- The consumer's name in `processed_events`. -/
def consumerName : String := "analytics"

/-- Apply one event to the rollup. `true` if applied, `false` if a duplicate. -/
def handleEvent (payload : Payload) : Tx Bool := do
  let txnId := payload.transactionId
  if ← ProcessedEventRepository.isProcessed consumerName txnId then
    pure false
  else do
    ProcessedEventRepository.markProcessed consumerName txnId
    TransactionStatRepository.increment payload.currency payload.type payload.amount
    match ← (query .commit).attempt with
    | .ok () => pure true
    | .error (.db .integrity) => do
        query .rollback
        pure false
    | .error e => raise e

/-- `handle_event` on JSON that is no event: reading the transaction id raises, or reading what
comes after it, with the event recorded by then. -/
def handleForeign (transactionId : Option Uuid) : Tx Bool := do
  let some txnId := transactionId | raise .payload
  if ← ProcessedEventRepository.isProcessed consumerName txnId then
    pure false
  else do
    ProcessedEventRepository.markProcessed consumerName txnId
    raise .payload

end AnalyticsService

namespace ReconciliationService

/-- The wallets whose balance is not what the ledger query gives for them, 0 if nothing. -/
def discrepancies (ledger : List (Uuid × Int)) (wallets : List Wallet) : List Discrepancy :=
  wallets.filterMap (fun wallet =>
    let ledgerBalance := (ledger.lookup wallet.id).getD 0
    if wallet.availableBalance ≠ ledgerBalance then
      some ⟨wallet.id, wallet.availableBalance, ledgerBalance⟩
    else none)

/-- Two queries, one after the other. -/
def check : Tx ReconciliationReport := do
  let ledger : List (Uuid × Int) ← query .selectLedgerBalances
  let wallets : List Wallet ← query .selectWallets
  pure ⟨wallets.length, discrepancies ledger wallets⟩

end ReconciliationService

end WalletLedger
