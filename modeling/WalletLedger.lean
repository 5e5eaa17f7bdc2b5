import WalletLedger.Isolation.Table
import WalletLedger.Isolation.Prog
import WalletLedger.Isolation.Store
import WalletLedger.Isolation.Logic
import WalletLedger.Isolation.Runs
import WalletLedger.Isolation.Trail
import WalletLedger.Isolation.Alone
import WalletLedger.Isolation.Sequential
import WalletLedger.Isolation.Deadlock
import WalletLedger.Isolation.Paging
import WalletLedger.Db.Schema
import WalletLedger.Db.Tables
import WalletLedger.Db.Statements
import WalletLedger.Db.Growth
import WalletLedger.App.Repositories
import WalletLedger.App.Services
import WalletLedger.App.Routes
import WalletLedger.App.Workers
import WalletLedger.App.System
import WalletLedger.App.Responses
import WalletLedger.App.Auth
import WalletLedger.Spec.Movement
import WalletLedger.Spec.History
import WalletLedger.Spec.Accounts
import WalletLedger.Spec.Rollup
import WalletLedger.Proof.Vocabulary
import WalletLedger.Proof.Contract
import WalletLedger.Proof.Session
import WalletLedger.Proof.Booking
import WalletLedger.Proof.Operations
import WalletLedger.Proof.Books
import WalletLedger.Proof.Ledger
import WalletLedger.Proof.Effects
import WalletLedger.Proof.Trails
import WalletLedger.Proof.Statement
import WalletLedger.Proof.Single
import WalletLedger.Proof.Pages
import WalletLedger.Proof.Reconciliation
import WalletLedger.Proof.Binding
import WalletLedger.Proof.Locking
import WalletLedger.Proof.Cache
import WalletLedger.Proof.Freshness
import WalletLedger.Proof.Transparency
import WalletLedger.Proof.Replay
import WalletLedger.Proof.Serial
import WalletLedger.Proof.Veil
import WalletLedger.Proof.Delivery
import WalletLedger.Proof.Inbox
import WalletLedger.Proof.Offsets
import WalletLedger.Proof.Tally
import WalletLedger.Proof.Pipeline
import WalletLedger.Proof.Deliveries
import WalletLedger.Proof.Receipt
import WalletLedger.Proof.Notifications
import WalletLedger.Proof.Slots
import WalletLedger.Proof.Admission
import WalletLedger.Proof.Ending
import WalletLedger.Proof.Limits
import WalletLedger.Proof.Currencies
import WalletLedger.Proof.Login
import WalletLedger.Proof.Batches
import WalletLedger.Proof.Draining
import WalletLedger.Isolation.Front
import WalletLedger.Wire.Uuid
import WalletLedger.App.Api
import WalletLedger.Proof.Api
import WalletLedger.Proof.Authorized
import WalletLedger.Proof.Tokens
import WalletLedger.Proof.CaughtUp
import WalletLedger.Proof.Progress
import WalletLedger.Proof.Refusals
import WalletLedger.Proof.Permanence
import WalletLedger.Wire.DateTime
import WalletLedger.Wire.Json
import WalletLedger.Wire.JsonText
import WalletLedger.App.Texts
import WalletLedger.Proof.Readers
import WalletLedger.Proof.Texts
