import WalletLedger.App.System

/-!
# Accounts

`app/api/routes/users.py`, `app/api/routes/auth.py` and the half of `UserService` that
reads. An address gets into the database through `UserCreate`, whose `EmailStr` puts its normal
form in its place; the login form hands on what was typed. Both then meet in
`UserRepository.get_by_email`, which compares strings.
-/

namespace WalletLedger

open Isolation Prog

/-- The libraries that read addresses and check passwords. -/
class Credentials where
  /-- `EmailStr`: the normal form of an address, if it is one. -/
  normalizeEmail : String → Option String
  /-- `PasswordHash.verify`, of a password and a hash. -/
  verifyPassword : String → String → Bool

variable [Runtime] [Credentials]

/-- What pydantic makes of the body of `POST /users`. -/
def UserCreate.validate (name email password : String) : Option UserCreate :=
  if 1 ≤ name.length ∧ name.length ≤ 255 ∧ 8 ≤ password.length ∧ password.length ≤ 120 then
    (Credentials.normalizeEmail email).map (fun e => ⟨name, e, password⟩)
  else none

namespace UserService

/-- The account under an email, if the password is its own. -/
def authenticate (email password : String) : Tx (Option User) := do
  let some user ← UserRepository.getByEmail email | pure none
  if Credentials.verifyPassword password user.passwordHash
    = true then pure (some user) else pure none

end UserService

/-- `Token`, as far as the JWT in it can be read: its subject. -/
structure Token where
  subject : Uuid
  deriving DecidableEq, Repr

namespace Routes

/-- The one answer for an address nobody has and for a wrong password. -/
def incorrectLogin : Exn := .http 401 "Incorrect email or password"

def login (username password : String) : Tx Token := do
  let some user ← UserService.authenticate username password | raise incorrectLogin
  pure ⟨user.id⟩

end Routes

/-- `POST /auth/login`, with the session of `get_db`. -/
def loginProgram (username password : String) : Tx Token :=
  withSession (Routes.login username password)

end WalletLedger
