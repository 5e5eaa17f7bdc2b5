import Mathlib.Data.List.Dedup
import Mathlib.Data.List.Sort
import WalletLedger.Db.Schema
import WalletLedger.Isolation.Store

/-!
# The database: tables, writes and what locks protect

A `Write` is one row-level change a session has buffered. A `Res` is what
PostgreSQL makes sessions wait for: a row under its primary key, or a value of a
unique index. `same r` says what holding `r` buys: nobody else can change what
`same r` compares.
-/

namespace WalletLedger

open Isolation

/-- The committed tables. -/
@[ext] structure Db where
  users : Table User Uuid User.id
  wallets : Table Wallet Uuid Wallet.id
  transactions : Table Transaction Uuid Transaction.id
  ledgerEntries : Table LedgerEntry Uuid LedgerEntry.id
  outboxEvents : Table OutboxEvent Uuid OutboxEvent.id
  processedEvents : Table ProcessedEvent (String × Uuid) ProcessedEvent.key
  transactionStats : Table TransactionStat (String × String) TransactionStat.key

/-- `case((entry_type == CREDIT, amount), else_=-amount)`. -/
def LedgerEntry.signedAmount (e : LedgerEntry) : Int :=
  match e.entryType with
  | .credit => e.amount
  | .debit => -e.amount

namespace Db

/-- The database after the migrations: every table empty. -/
def empty : Db :=
  { users := .empty, wallets := .empty, transactions := .empty, ledgerEntries := .empty,
    outboxEvents := .empty, processedEvents := .empty, transactionStats := .empty }

/-- The user with an email. -/
def userByEmail (db : Db) (email : String) : Option User :=
  db.users.rows.find? (fun u => decide (u.email = email))

/-- The wallet of a user in a currency. -/
def walletByUserAndCurrency (db : Db) (userId : Uuid) (currency : String) : Option Wallet :=
  db.wallets.rows.find? (fun w => decide (w.userId = userId ∧ w.currency = currency))

/-- The transaction an idempotency key is bound to. -/
def transactionByKey (db : Db) (key : String) : Option Transaction :=
  db.transactions.rows.find? (fun t => decide (t.idempotencyKey = some key))

/-- The legs of a wallet. -/
def entriesOfWallet (db : Db) (walletId : Uuid) : List LedgerEntry :=
  db.ledgerEntries.rows.filter (fun e => decide (e.walletId = some walletId))

/-- The legs of a transaction. -/
def entriesOfTransaction (db : Db) (transactionId : Uuid) : List LedgerEntry :=
  db.ledgerEntries.rows.filter (fun e => decide (e.transactionId = transactionId))

/-- `SELECT ... WHERE wallet_id = ... ORDER BY seq DESC LIMIT limit OFFSET offset`. -/
def entriesPage (db : Db) (walletId : Uuid) (limit offset : Nat) : List LedgerEntry :=
  (((db.entriesOfWallet walletId).insertionSort (fun a b => b.seq ≤ a.seq)).drop offset).take limit

/-- `SELECT wallet_id, SUM(signed_amount) ... WHERE wallet_id IS NOT NULL GROUP BY wallet_id`. -/
def ledgerBalances (db : Db) : List (Uuid × Int) :=
  (db.ledgerEntries.rows.filterMap LedgerEntry.walletId).dedup.map
    (fun id => (id, ((db.entriesOfWallet id).map LedgerEntry.signedAmount).sum))

end Db

/-- One buffered change of a row. -/
inductive Write where
  | insertUser (u : User)
  | insertWallet (w : Wallet)
  | setBalance (id : Uuid) (balance : Int) (updatedAt : Time)
  | insertTransaction (t : Transaction)
  | setStatus (id : Uuid) (status : TransactionStatus)
  | insertEntry (e : LedgerEntry)
  | insertEvent (e : OutboxEvent)
  | setPublished (id : Uuid) (publishedAt : Time)
  | insertProcessed (p : ProcessedEvent)
  | insertStat (r : TransactionStat)
  | setStat (key : String × String) (count totalAmount : Int)
  deriving DecidableEq, Repr

/-! Column updates. -/

/-- `UPDATE wallets SET available_balance, updated_at`. -/
def Wallet.setBalance (b : Int) (now : Time) (w : Wallet) : Wallet :=
  { w with availableBalance := b, updatedAt := now }

/-- `UPDATE transactions SET status`. -/
def Transaction.setStatus (st : TransactionStatus) (t : Transaction) : Transaction :=
  { t with status := st }

/-- `UPDATE outbox_events SET published_at`. -/
def OutboxEvent.stamp (now : Time) (e : OutboxEvent) : OutboxEvent :=
  { e with publishedAt := some now }

/-- `UPDATE transaction_stats SET count, total_amount`. -/
def TransactionStat.set (c total : Int) (r : TransactionStat) : TransactionStat :=
  { r with count := c, totalAmount := total }

/-- Apply one write. -/
def Db.apply (db : Db) : Write → Db
  | .insertUser u => { db with users := db.users.insert u }
  | .insertWallet w => { db with wallets := db.wallets.insert w }
  | .setBalance id b now =>
      { db with wallets := db.wallets.modify id (Wallet.setBalance b now) (fun _ => rfl) }
  | .insertTransaction t => { db with transactions := db.transactions.insert t }
  | .setStatus id st =>
      { db with transactions :=
        db.transactions.modify id (Transaction.setStatus st) (fun _ => rfl) }
  | .insertEntry e => { db with ledgerEntries := db.ledgerEntries.insert e }
  | .insertEvent e => { db with outboxEvents := db.outboxEvents.insert e }
  | .setPublished id now =>
      { db with outboxEvents := db.outboxEvents.modify id (OutboxEvent.stamp now) (fun _ => rfl) }
  | .insertProcessed p => { db with processedEvents := db.processedEvents.insert p }
  | .insertStat r => { db with transactionStats := db.transactionStats.insert r }
  | .setStat key c total =>
      { db with
        transactionStats := db.transactionStats.modify key (TransactionStat.set c
          total) (fun _ => rfl) }

/-- What a session can wait for. -/
inductive Res where
  | user (id : Uuid)
  | email (email : String)
  | wallet (id : Uuid)
  | walletOwner (userId : Uuid) (currency : String)
  | transaction (id : Uuid)
  | idempotencyKey (key : String)
  | entry (id : Uuid)
  | event (id : Uuid)
  | processed (key : String × Uuid)
  | stat (key : String × String)
  deriving DecidableEq, Repr

/-- The resources a write may disturb. -/
def Write.footprint : Write → List Res
  | .insertUser u => [.user u.id, .email u.email]
  | .insertWallet w => [.wallet w.id, .walletOwner w.userId w.currency]
  | .setBalance id _ _ => [.wallet id]
  | .insertTransaction t => .transaction t.id :: t.idempotencyKey.toList.map .idempotencyKey
  | .setStatus id _ => [.transaction id]
  | .insertEntry e => [.entry e.id]
  | .insertEvent e => [.event e.id]
  | .setPublished id _ => [.event id]
  | .insertProcessed p => [.processed p.key]
  | .insertStat r => [.stat r.key]
  | .setStat key _ _ => [.stat key]

/-- Agreement of two databases on a resource. Unique-index values compare what
the index points at, not the rest of the row. -/
def Res.same : Res → Db → Db → Prop
  | .user id, db, db' => db'.users.get id = db.users.get id
  | .email e, db, db' => (db'.userByEmail e).map User.id = (db.userByEmail e).map User.id
  | .wallet id, db, db' => db'.wallets.get id = db.wallets.get id
  | .walletOwner u c, db, db' =>
      (db'.walletByUserAndCurrency u c).map Wallet.id
        = (db.walletByUserAndCurrency u c).map Wallet.id
  | .transaction id, db, db' => db'.transactions.get id = db.transactions.get id
  | .idempotencyKey k, db, db' =>
      (db'.transactionByKey k).map Transaction.id = (db.transactionByKey k).map Transaction.id
  | .entry id, db, db' => db'.ledgerEntries.get id = db.ledgerEntries.get id
  | .event id, db, db' => db'.outboxEvents.get id = db.outboxEvents.get id
  | .processed k, db, db' => db'.processedEvents.get k = db.processedEvents.get k
  | .stat k, db, db' => db'.transactionStats.get k = db.transactionStats.get k

theorem Res.same_refl (r : Res) (db : Db) : r.same db db := by
  cases r <;> simp [Res.same]

theorem Res.same_trans {r : Res} {db₁ db₂ db₃ : Db} (h₁ : r.same db₁ db₂) (h₂ : r.same db₂ db₃) :
    r.same db₁ db₃ := by
  cases r <;> simp_all [Res.same]

theorem Db.transactionByKey_some {db : Db} {k : String} {txn : Transaction}
    (h : db.transactionByKey k = some txn) :
    db.transactions.get txn.id = some txn ∧ txn.idempotencyKey = some k := by
  unfold Db.transactionByKey at h
  have hk := List.find?_some h
  exact ⟨Table.get_of_mem (List.mem_of_find?_eq_some h), by simpa using hk⟩

/-! ## The frame law -/

section find

variable {α κ β : Type} {key : α → κ} [DecidableEq κ] {t : Table α κ key}

/-- Inserting a row that a search does not match leaves the search alone. -/
theorem find?_insert {p : α → Bool} {a : α} (h : p a = false) :
    (t.insert a).rows.find? p = t.rows.find? p := by
  unfold Table.insert
  split
  · rfl
  · simp [List.find?_append, h]

/-- Changing a row in columns neither a search nor its result looks at leaves the
search alone. -/
theorem find?_modify {p : α → Bool} {g : α → β} {k : κ} {f : α → α}
    (hf : ∀ a, key (f a) = key a) (hp : ∀ a, p (f a) = p a) (hg : ∀ a, g (f a) = g a) :
    ((t.modify k f hf).rows.find? p).map g = (t.rows.find? p).map g := by
  rw [Table.rows_modify, List.find?_map]
  have hcomp : (p ∘ fun a => if key a = k then f a else a) = p := by
    funext a
    by_cases h : key a = k
    · simp [h, hp]
    · simp [h]
  rw [hcomp, Option.map_map]
  congr 1
  funext a
  by_cases h : key a = k
  · simp [h, hg]
  · simp [h]

end find

/-- **A write leaves everything outside its footprint alone.** -/
theorem Res.same_apply {r : Res} {db : Db} {w : Write} (h : r ∉ w.footprint) :
    r.same db (db.apply w) := by
  cases w with
  | insertUser u =>
      cases r with
      | user id =>
          refine Table.get_insert_ne (fun he => h ?_)
          simp [Write.footprint, ← he]
      | email e =>
          have hne : u.email ≠ e := fun he => h (by simp [Write.footprint, he])
          exact congrArg _ (find?_insert (by simp [hne]))
      | _ => rfl
  | insertWallet w =>
      cases r with
      | wallet id =>
          refine Table.get_insert_ne (fun he => h ?_)
          simp [Write.footprint, ← he]
      | walletOwner u c =>
          have hne : ¬(w.userId = u ∧ w.currency = c) := by
            rintro ⟨rfl, rfl⟩; exact h (by simp [Write.footprint])
          exact congrArg _ (find?_insert (by simp only [hne, decide_false]))
      | _ => rfl
  | setBalance id b now =>
      cases r with
      | wallet id' =>
          refine Table.get_modify_ne (by intro; rfl) (fun he => h ?_)
          simp [Write.footprint, he]
      | walletOwner u c => exact find?_modify (by intro; rfl) (fun _ => rfl) (fun _ => rfl)
      | _ => rfl
  | insertTransaction t =>
      cases r with
      | transaction id =>
          refine Table.get_insert_ne (fun he => h ?_)
          simp [Write.footprint, ← he]
      | idempotencyKey k =>
          have hne : t.idempotencyKey ≠ some k := fun he => h (by simp [Write.footprint, he])
          exact congrArg _ (find?_insert (by simp [hne]))
      | _ => rfl
  | setStatus id st =>
      cases r with
      | transaction id' =>
          refine Table.get_modify_ne (by intro; rfl) (fun he => h ?_)
          simp [Write.footprint, he]
      | idempotencyKey k => exact find?_modify (by intro; rfl) (fun _ => rfl) (fun _ => rfl)
      | _ => rfl
  | insertEntry e =>
      cases r with
      | entry id =>
          refine Table.get_insert_ne (fun he => h ?_)
          simp [Write.footprint, ← he]
      | _ => rfl
  | insertEvent e =>
      cases r with
      | event id =>
          refine Table.get_insert_ne (fun he => h ?_)
          simp [Write.footprint, ← he]
      | _ => rfl
  | setPublished id now =>
      cases r with
      | event id' =>
          refine Table.get_modify_ne (by intro; rfl) (fun he => h ?_)
          simp [Write.footprint, he]
      | _ => rfl
  | insertProcessed p =>
      cases r with
      | processed k =>
          refine Table.get_insert_ne (fun he => h ?_)
          simp [Write.footprint, ← he]
      | _ => rfl
  | insertStat x =>
      cases r with
      | stat k =>
          refine Table.get_insert_ne (fun he => h ?_)
          simp [Write.footprint, ← he]
      | _ => rfl
  | setStat k c total =>
      cases r with
      | stat k' =>
          refine Table.get_modify_ne (by intro; rfl) (fun he => h ?_)
          simp [Write.footprint, he]
      | _ => rfl

end WalletLedger
