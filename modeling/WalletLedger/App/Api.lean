import WalletLedger.App.Auth
import WalletLedger.Isolation.Front
import WalletLedger.Wire.Uuid

/-!
# The API

`app/core/security.py`, `app/api/deps.py` and the routers as a client meets them: a request of a
wallet route carries a token, and only `get_current_user` says whose it is. It runs in the session
of the route behind it, before the route does.

The services with the user given are the system of `App/System.lean`; what is here comes in front
of it (`Isolation/Front.lean`).
-/

namespace WalletLedger

open Isolation Prog

/-! ## Tokens -/

/-- The claims the service puts into a token. -/
structure Claims where
  sub : Option String
  /-- In seconds. -/
  exp : Option Nat
  deriving DecidableEq, Repr

/-- PyJWT under `settings.jwt_secret` and `settings.jwt_algorithm`. -/
class Jwt where
  encode : Claims → String
  /-- The claims of a token whose signature is the secret's. -/
  payload : String → Option Claims

/-- What the environment may set. -/
class Settings where
  /-- `access_token_expiry_minutes`, 30 unless set. -/
  accessTokenExpiryMinutes : Int

/-- Ticks of the clock in a second: timestamps are in microseconds. -/
def second : Time := 1000000

/-- `int((now + timedelta(minutes=minutes)).timestamp())`. -/
def expiry (now : Time) (minutes : Int) : Nat :=
  ((now : Int) + minutes * 60 * second).toNat / second

/-- `jwt.decode`: the signature, then `exp`. -/
def jwtDecode [Jwt] (token : String) (now : Time) : Option Claims :=
  match Jwt.payload token with
  | some claims => if ∃ e ∈ claims.exp, e * second ≤ now then none else some claims
  | none => none

/-! ## Statements in front of the services -/

/-- The reads no service needs. -/
inductive Look where
  | selectUserById (id : Uuid)
  /-- `SELECT 1`. -/
  | selectOne
  /-- All of `transaction_stats`. -/
  | selectStats
  deriving DecidableEq, Repr

/-- What a look is answered with. -/
@[reducible] def Look.Ans : Look → Type
  | .selectUserById _ => Option User
  | .selectOne => Unit
  | .selectStats => List TransactionStat

/-- The answer of a look, if the server does not fail. -/
def Look.rows (db : Db) : (l : Look) → l.Ans
  | .selectUserById id => db.users.get id
  | .selectOne => ()
  | .selectStats => db.transactionStats.rows

def Look.run (l : Look) (inp : Inp) (db : Db) : Except Exn l.Ans :=
  match inp.fault with
  | some e => .error (.db e)
  | none => .ok (l.rows db)

/-- A program in front of the services. -/
abbrev FrontTx (α : Type) := Prog (Stmt ⊕ Look) (FrontAns Stmt.Ans Look.Ans) Exn α

/-- Send a statement the services send as well. -/
def ask (q : Stmt) : FrontTx q.Ans := Prog.perform (Sum.inl q)

def look (l : Look) : FrontTx l.Ans := Prog.perform (Sum.inr l)

/-- `get_db`. -/
def frontSession {α : Type} (p : FrontTx α) : FrontTx α :=
  p.handle (fun r => do
    ask .close
    ofExcept r)

/-! ## Who is asking -/

section auth

variable [Jwt] [Settings]

/-- No minutes, like none at all, are the setting's. -/
def createAccessToken (subject : String) (expiresMinutes : Option Int) : FrontTx String := do
  let now : Time ← ask .now
  let minutes := (expiresMinutes.filter (fun m => decide (m ≠ 0))).getD
    Settings.accessTokenExpiryMinutes
  pure (Jwt.encode ⟨some subject, some (expiry now minutes)⟩)

omit [Settings] in
def decodeAccessToken (token : String) : FrontTx (Option String) := do
  let now : Time ← ask .now
  match jwtDecode token now with
  | some claims => pure claims.sub
  | none => pure none

/-- `UserRepository.get_by_id`. -/
def UserRepository.getById (id : Uuid) : FrontTx (Option User) := look (.selectUserById id)

def credentialsError : Exn := .http 401 "Could not validate credentials"

omit [Settings] in
def getCurrentUser (token : String) : FrontTx User := do
  let some subject ← decodeAccessToken token | raise credentialsError
  let some userId := Wire.uuidOfStr subject | raise credentialsError
  let some user ← UserRepository.getById userId | raise credentialsError
  pure user

/-! ## Requests -/

/-- The routes of `wallets.py`, with everything but the user. -/
inductive WalletRoute where
  | createWallet (data : WalletCreate)
  | getBalance (walletId : Uuid)
  | listTransactions (walletId : Uuid) (limit offset : Nat)
  | deposit (walletId : Uuid) (data : DepositRequest)
  | transfer (walletId : Uuid) (data : TransferRequest) (idempotencyKey : Option String)
  | withdraw (walletId : Uuid) (data : WithdrawalRequest) (idempotencyKey : Option String)
  deriving DecidableEq

/-- What a route asks of the services for a user. -/
def WalletRoute.request (user : Uuid) : WalletRoute → Request
  | .createWallet data => .createWallet user data
  | .getBalance w => .getBalance w user
  | .listTransactions w limit offset => .listTransactions w limit offset user
  | .deposit w data => .deposit w user data
  | .transfer w data key => .transfer w user data key
  | .withdraw w data key => .withdraw w user data key

/-- The processes beside the API. -/
inductive Job where
  | publish (producer : Nat) (topic : String) (batchSize : Nat)
  | analyticsConsumer
  | reconcile
  deriving DecidableEq

def Job.request : Job → Request
  | .publish producer topic n => .publish producer topic n
  | .analyticsConsumer => .analyticsConsumer
  | .reconcile => .reconcile

/-- What the platform can be asked to do. -/
inductive Task where
  | login (username password : String)
  | register (data : UserCreate)
  | readMe (token : String)
  | wallets (token : String) (route : WalletRoute)
  | readiness
  /-- `run_analytics_snapshot`. -/
  | snapshot
  | job (j : Job)
  deriving DecidableEq

/-- `Token`. -/
structure AccessToken where
  accessToken : String
  tokenType : String := "bearer"
  deriving DecidableEq, Repr

/-- `UserRead`. -/
structure UserRead where
  id : Uuid
  name : String
  email : String
  deriving DecidableEq, Repr

def UserRead.ofUser (u : User) : UserRead := ⟨u.id, u.name, u.email⟩

/-- What a task returns. -/
inductive Answer where
  | token (t : AccessToken)
  | account (u : UserRead)
  /-- The status code of the readiness probe. -/
  | ready (statusCode : Nat)
  | stats (rows : List TransactionStat)
  | reply (r : Reply)
  deriving DecidableEq, Repr

variable [Runtime] [Credentials]

/-- A route without the session around it. -/
def WalletRoute.body (user : Uuid) : WalletRoute → Tx Reply
  | .createWallet data => Reply.wallet <$> WalletService.createWallet user data
  | .getBalance w => Reply.balance <$> Routes.getBalance w user
  | .listTransactions w limit offset =>
      Reply.history <$> Routes.listTransactions w limit offset user
  | .deposit w data => Reply.ofMoved <$> Routes.deposit w user data
  | .transfer w data key => Reply.ofMoved <$> Routes.transfer w user data key
  | .withdraw w data key => Reply.ofMoved <$> Routes.withdraw w user data key

namespace Api

omit [Runtime] in
def login (username password : String) : FrontTx AccessToken := do
  let some user ← (UserService.authenticate username password).behind id
    | raise Routes.incorrectLogin
  let accessToken ← createAccessToken (Wire.uuidStr user.id) none
  pure { accessToken := accessToken }

omit [Runtime] [Credentials] [Settings] in
def readMe (token : String) : FrontTx UserRead := do
  let currentUser ← getCurrentUser token
  pure (.ofUser currentUser)

omit [Settings] [Credentials] in
/-- A wallet route behind its dependency. -/
def wallets (token : String) (route : WalletRoute) : FrontTx Answer := do
  let currentUser ← getCurrentUser token
  (route.body currentUser.id).behind Answer.reply

omit [Runtime] [Credentials] [Jwt] [Settings] in
/-- Any exception is an answer too. -/
def readiness : FrontTx Nat := do
  match ← (look .selectOne).attempt with
  | .ok _ => pure 200
  | .error _ => pure 503

end Api

/-- The program behind a task. -/
def Task.program : Task → FrontTx Answer
  | .login username password => frontSession (Answer.token <$> Api.login username password)
  | .register data => (Request.register data).program.behind Answer.reply
  | .readMe token => frontSession (Answer.account <$> Api.readMe token)
  | .wallets token route => frontSession (Api.wallets token route)
  | .readiness => frontSession (Answer.ready <$> Api.readiness)
  | .snapshot => frontSession (Answer.stats <$> look .selectStats)
  | .job j => j.request.program.behind Answer.reply

omit [Settings] [Runtime] [Credentials] in
/-- Whose a token is, as long as it is good. -/
def subjectOf (token : String) : Option Uuid :=
  ((Jwt.payload token).bind Claims.sub).bind Wire.uuidOfStr

omit [Settings] [Runtime] [Credentials] in
/-- The session of the services a task becomes. For one that never does, it is one that never
moves. -/
def Task.request : Task → Request
  | .register data => .register data
  | .wallets token route => ((subjectOf token).map (fun user => route.request user)).getD .reconcile
  | .job j => j.request
  | _ => .reconcile

/-- The API and the processes beside it, in front of the services. -/
def api : Front system Look Look.Ans Task Answer where
  look := Look.run
  target := Task.request
  wrap := Answer.reply
  start := Task.program

/-- A state of the platform. -/
abbrev ApiWorld :=
  World Db Write Res Outside (Stmt ⊕ Look) Inp Exn Task Answer (FrontAns Stmt.Ans Look.Ans)

/-- An executed statement of the platform. -/
abbrev ApiObs := Obs Db Outside (Stmt ⊕ Look) Inp Task

/-- The shared state of the platform. -/
abbrev ApiStore := Store Db Write Res Outside (Stmt ⊕ Look) Inp Task

def ApiStore.start (db : Db) : ApiStore := Store.init db .init

/-- The states that runs of the platform lead to. -/
abbrev ApiReachable (db : Db) (w : ApiWorld) : Prop := Reachable api.system (ApiStore.start db) w

end auth

end WalletLedger
