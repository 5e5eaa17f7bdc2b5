import WalletLedger.App.Routes
import WalletLedger.App.Workers
import WalletLedger.Isolation.Logic

/-!
# The whole system

Any number of API requests, publisher iterations, event handlers, analytics
consumer processes and reconciliation jobs, each in its own session, over one
database, one broker and one cache.
A request runs under `get_db`, which closes the session however it ends.
-/

namespace WalletLedger

open Isolation Prog

variable [Runtime]

/-- What a session can be asked to do. -/
inductive Request where
  | register (data : UserCreate)
  | createWallet (ownerId : Uuid) (data : WalletCreate)
  | deposit (walletId requesterId : Uuid) (data : DepositRequest)
  | transfer (senderWalletId requesterId : Uuid) (data : TransferRequest)
      (idempotencyKey : Option String)
  | withdraw (walletId requesterId : Uuid) (data : WithdrawalRequest)
      (idempotencyKey : Option String)
  | publish (producer : Nat) (topic : String) (batchSize : Nat)
  | handleEvent (payload : Payload)
  | analyticsConsumer
  | getBalance (walletId requesterId : Uuid)
  | listTransactions (walletId : Uuid) (limit offset : Nat) (requesterId : Uuid)
  | reconcile
  deriving DecidableEq

/-- What a session returns. -/
inductive Reply where
  | user (u : User)
  | wallet (w : Wallet)
  | moved (txn : Transaction) (wallet : Option Wallet)
  | published (n : Nat)
  | handled (applied : Bool)
  | polled
  | balance (b : BalanceRead)
  | history (h : TransactionHistory)
  | report (r : ReconciliationReport)
  deriving DecidableEq, Repr

/-- `get_db`: the session is closed on the way out, value or exception. -/
def withSession {α : Type} (p : Tx α) : Tx α :=
  p.handle (fun r => do
    query .close
    ofExcept r)

/-- The reply of a money operation. -/
def Reply.ofMoved (r : Transaction × Option Wallet) : Reply := .moved r.1 r.2

/-- The program behind a request. -/
def Request.program : Request → Tx Reply
  | .register data => withSession (Reply.user <$> UserService.register data)
  | .createWallet owner data => withSession (Reply.wallet <$> WalletService.createWallet owner data)
  | .deposit w u data => withSession (Reply.ofMoved <$> Routes.deposit w u data)
  | .transfer w u data key => withSession (Reply.ofMoved <$> Routes.transfer w u data key)
  | .withdraw w u data key => withSession (Reply.ofMoved <$> Routes.withdraw w u data key)
  | .publish producer topic n => Reply.published <$> OutboxPublisher.iteration producer topic n
  | .handleEvent payload => withSession (Reply.handled <$> AnalyticsService.handleEvent payload)
  | .analyticsConsumer => (fun _ => Reply.polled) <$> AnalyticsConsumer.main
  | .getBalance w u => withSession (Reply.balance <$> Routes.getBalance w u)
  | .listTransactions w limit offset u =>
      withSession (Reply.history <$> Routes.listTransactions w limit offset u)
  | .reconcile => withSession (Reply.report <$> ReconciliationService.check)

/-- What a looping session goes on with after each round. -/
def Request.next : Request → Option (Tx Reply)
  | .analyticsConsumer =>
      some ((fun _ => Reply.polled) <$> AnalyticsConsumer.guarded AnalyticsConsumer.round)
  | _ => none

/-- The system of all sessions. -/
def system : System Db Write Res Outside Stmt Inp Move Exn Request Reply Stmt.Ans :=
  { engine with
    start := Request.program
    again := Request.next }

/-- The shared state of the system. -/
abbrev LedgerStore := Store Db Write Res Outside Stmt Inp Request

/-- A state of the system with all its sessions. -/
abbrev LedgerWorld := World Db Write Res Outside Stmt Inp Exn Request Reply Stmt.Ans

/-- A database with nothing running on it and an empty topic. -/
def LedgerStore.start (db : Db) : LedgerStore := Store.init db .init

/-- How a program has ended, if it has. -/
def outcome : Tx Reply → Option (Except Exn Reply)
  | .ret a => some (.ok a)
  | .raise e => some (.error e)
  | .call _ _ => none

/-- What a session was asked to do and how it has ended, if it has. -/
def ended (w : LedgerWorld) (i : Sid) : Option (Request × Except Exn Reply) :=
  (w.sess i).bind (fun x => (outcome x.2).map (fun r => (x.1, r)))

/-- The worlds that runs from a database lead to. -/
abbrev ReachableFrom (db : Db) (w : LedgerWorld) : Prop := Reachable system (LedgerStore.start db) w

@[simp] theorem system_toEngine : (system).toEngine = engine := rfl

end WalletLedger
