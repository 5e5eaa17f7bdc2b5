import WalletLedger.App.Services

/-!
# Routes

`app/api/routes/wallets.py`, as far as a route does more than call its service:
the balance is read through the cache, and a money operation that has returned
invalidates the entries of the wallets it names. The requester is the
authenticated user.

The error responses of the money routes are a function of the exception the
service raises, so the exception itself is kept. Likewise what the service returns is
kept as it is: the body is built from it in `App/Responses`, which is where a replay that
returned no wallet raises.
-/

namespace WalletLedger

open Isolation Prog

variable [Runtime]

namespace Routes

/-- The one answer for a wallet that is missing and for one that is somebody else's. -/
def walletNotFound : Exn := .http 404 "Wallet not found."

/-- `except (WalletNotFoundError, WalletAccessDeniedError)`. -/
def orNotFound {α : Type} (p : Tx α) : Tx α :=
  p.handle (fun
    | .ok a => .ret a
    | .error (.walletNotFound _) => .raise walletNotFound
    | .error (.walletAccessDenied _) => .raise walletNotFound
    | .error e => .raise e)

/-- A hit is checked against the cached owner and answered from the cache; a miss goes
to the database and fills the cache. -/
def getBalance (walletId currentUser : Uuid) : Tx BalanceRead := do
  let cached ← BalanceCache.get walletId
  match cached with
  | some cached => do
      raiseIf (cached.userId ≠ currentUser) walletNotFound
      pure cached.read
  | none => do
      let wallet ← orNotFound (WalletService.getBalance walletId currentUser)
      BalanceCache.set walletId (.ofWallet wallet)
      pure (.ofWallet wallet)

/-- Only the owner of a wallet can read its history. -/
def listTransactions (walletId : Uuid) (limit offset : Nat) (currentUser : Uuid) :
    Tx TransactionHistory := do
  let wallet ← WalletRepository.getById walletId
  raiseIf (∀ w ∈ wallet, w.userId ≠ currentUser) walletNotFound
  let entries ← LedgerRepository.getEntriesForWallet walletId limit offset
  pure ⟨entries.map .ofEntry, limit, offset⟩

def deposit (walletId currentUser : Uuid) (data : DepositRequest) :
    Tx (Transaction × Option Wallet) := do
  let r ← LedgerService.deposit walletId currentUser data
  BalanceCache.invalidate [walletId]
  pure r

def transfer (walletId currentUser : Uuid) (data : TransferRequest)
    (idempotencyKey : Option String) : Tx (Transaction × Option Wallet) := do
  let r ← LedgerService.transfer walletId currentUser data idempotencyKey
  BalanceCache.invalidate [walletId, data.recipientWalletId]
  pure r

def withdraw (walletId currentUser : Uuid) (data : WithdrawalRequest)
    (idempotencyKey : Option String) : Tx (Transaction × Option Wallet) := do
  let r ← LedgerService.withdraw walletId currentUser data idempotencyKey
  BalanceCache.invalidate [walletId]
  pure r

end Routes

end WalletLedger
