import WalletLedger.App.System

/-!
# Responses

What a client of `app/api/routes/wallets.py` sees: the body of a success, the status
and detail of an `HTTPException`, and a plain 500 for whatever else a route raises. Each
route has its own list of exceptions it answers.

A body is built from what the service returned. A replay whose path wallet does not exist
returns no wallet, and reading `available_balance` off `None` raises: `Routes.built` is how the
route ends then.
-/

namespace WalletLedger

/-! ## Bodies -/

/-- `WalletRead`. -/
structure WalletRead where
  id : Uuid
  userId : Uuid
  currency : String
  availableBalance : Int
  lockedBalance : Int
  createdAt : Time
  deriving DecidableEq, Repr

/-- What `WalletRead` takes from a wallet. -/
def WalletRead.ofWallet (w : Wallet) : WalletRead :=
  ⟨w.id, w.userId, w.currency, w.availableBalance, w.lockedBalance, w.createdAt⟩

/-- `DepositResponse`. -/
structure DepositResponse where
  transactionId : Uuid
  availableBalance : Int
  currency : String
  deriving DecidableEq, Repr

/-- `TransferResponse`. -/
structure TransferResponse where
  transactionId : Uuid
  status : String
  /-- The sender's balance. -/
  availableBalance : Int
  currency : String
  deriving DecidableEq, Repr

/-- `WithdrawalResponse`. -/
structure WithdrawalResponse where
  transactionId : Uuid
  status : String
  availableBalance : Int
  currency : String
  deriving DecidableEq, Repr

/-- What is sent with the status code. -/
inductive Content where
  | wallet (b : WalletRead)
  | balance (b : BalanceRead)
  | history (b : TransactionHistory)
  | deposit (b : DepositResponse)
  | transfer (b : TransferResponse)
  | withdrawal (b : WithdrawalResponse)
  | detail (text : String)
  deriving DecidableEq, Repr

/-- An HTTP response. -/
structure Response where
  statusCode : Nat
  content : Content
  deriving DecidableEq, Repr

namespace Response

/-- What the server makes of an exception no route answers. -/
def serverError : Response := ⟨500, .detail "Internal Server Error"⟩

/-- `raise HTTPException(status_code=..., detail=...)`. -/
def error (statusCode : Nat) (detail : String) : Response := ⟨statusCode, .detail detail⟩

end Response

/-! ## The routes -/

namespace Routes

/-- The `except` clauses of `create_wallet`. -/
def createWalletError : Exn → Response
  | .walletAlreadyExists _ => .error 409 "You already have a wallet in this currency."
  | _ => .serverError

/-- The reading routes raise their `HTTPException`s themselves. -/
def readError : Exn → Response
  | .http statusCode detail => .error statusCode detail
  | _ => .serverError

/-- The `except` clauses of `deposit`. -/
def depositError : Exn → Response
  | .walletNotFound _ => .error 404 "Wallet not found."
  | .walletAccessDenied _ => .error 404 "Wallet not found."
  | .currencyMismatch _ => .error 409 "Deposit currency does not match the wallet."
  | _ => .serverError

/-- The `except` clauses of `transfer`. -/
def transferError : Exn → Response
  | .walletNotFound _ => .error 404 "Wallet not found."
  | .walletAccessDenied _ => .error 404 "Wallet not found."
  | .recipientNotFound _ => .error 404 "Recipient wallet not found."
  | .currencyMismatch _ => .error 409 "Sender and recipient currencies must match."
  | .sameWalletTransfer _ => .error 422 "Cannot transfer to the same wallet."
  | .insufficientFunds _ => .error 422 "Insufficient funds."
  | _ => .serverError

/-- The `except` clauses of `withdraw`. -/
def withdrawError : Exn → Response
  | .walletNotFound _ => .error 404 "Wallet not found."
  | .walletAccessDenied _ => .error 404 "Wallet not found."
  | .currencyMismatch _ => .error 409 "Withdrawal currency does not match the wallet."
  | .insufficientFunds _ => .error 422 "Insufficient funds."
  | _ => .serverError

end Routes

/-- How a route ends whose services have ended so: building the body of a money operation
reads `available_balance` and `currency` off the wallet it was given. -/
def Routes.built : Except Exn Reply → Except Exn Reply
  | .ok (.moved _ none) => .error .attribute
  | r => r

/-- What a route of the wallets answers when it ends. -/
def Request.answer : Request → Except Exn Reply → Option Response
  | .createWallet _ _, .ok (.wallet w) => some ⟨201, .wallet (.ofWallet w)⟩
  | .createWallet _ _, .error e => some (Routes.createWalletError e)
  | .getBalance _ _, .ok (.balance b) => some ⟨200, .balance b⟩
  | .getBalance _ _, .error e => some (Routes.readError e)
  | .listTransactions _ _ _ _, .ok (.history h) => some ⟨200, .history h⟩
  | .listTransactions _ _ _ _, .error e => some (Routes.readError e)
  | .deposit _ _ _, .ok (.moved txn (some w)) =>
      some ⟨200, .deposit ⟨txn.id, w.availableBalance, w.currency⟩⟩
  | .deposit _ _ _, .error e => some (Routes.depositError e)
  | .transfer _ _ _ _, .ok (.moved txn (some w)) =>
      some ⟨200, .transfer ⟨txn.id, txn.status.value, w.availableBalance, w.currency⟩⟩
  | .transfer _ _ _ _, .error e => some (Routes.transferError e)
  | .withdraw _ _ _ _, .ok (.moved txn (some w)) =>
      some ⟨200, .withdrawal ⟨txn.id, txn.status.value, w.availableBalance, w.currency⟩⟩
  | .withdraw _ _ _ _, .error e => some (Routes.withdrawError e)
  | _, _ => none

/-- What the routes of the wallets answer, given how the request has ended. -/
def Request.respond (t : Request) (r : Except Exn Reply) : Option Response :=
  t.answer (Routes.built r)

end WalletLedger
