import WalletLedger.App.System

/-!
# Movements of money

What the money operations are for, said without statements, locks or sessions: a
*movement* takes an amount from one side to another, a side being a wallet or the
outside world, and leaves a header, two legs, an outbox event and new balances.

The services write this down piecemeal. Here the pieces of one movement are
defined from the movement alone, so that agreement between them is by
construction, and `Movement.posted` says what applying them to a database does.
-/

namespace WalletLedger

open Isolation

/-- One side of a movement: a wallet, as its row stands, or the outside world. -/
inductive Side where
  | wallet (w : Wallet)
  | funding
  deriving DecidableEq, Repr

namespace Side

/-- The wallet column of a leg on this side. -/
def walletId : Side → Option Uuid
  | .wallet w => some w.id
  | .funding => none

/-- The system-account column of a leg on this side. -/
def systemAccount : Side → Option String
  | .wallet _ => none
  | .funding => some LedgerService.systemAccountFunding

/-- The wallet rows to be updated, moved by `delta`. -/
def dirty (s : Side) (delta : Int) : List Wallet :=
  match s with
  | .wallet w => [{ w with availableBalance := w.availableBalance + delta }]
  | .funding => []

end Side

/-- `amount` goes from `source` to `target`. -/
structure Movement where
  type : TransactionType
  currency : String
  key : Option String
  amount : Int
  source : Side
  target : Side

/-- The ids, sequence numbers and timestamps drawn while a movement is written. -/
structure Minted where
  txn : Uuid
  debit : Uuid
  debitSeq : Nat
  debitAt : Time
  credit : Uuid
  creditSeq : Nat
  creditAt : Time
  event : Uuid
  eventAt : Time
  occurredAt : Time
  updatedAt : Uuid → Time

namespace Movement

variable (mv : Movement) (m : Minted)

/-- The header as it is inserted. -/
def header : Transaction := ⟨m.txn, mv.type, .pending, mv.currency, mv.key⟩

/-- The header as it is committed. -/
def txn : Transaction := (mv.header m).setStatus .completed

/-- The leg out of the source. -/
def debit : LedgerEntry :=
  ⟨m.debit, m.debitSeq, m.txn, .debit, mv.amount, mv.currency, mv.source.walletId,
    mv.source.systemAccount, m.debitAt⟩

/-- The leg into the target. -/
def credit : LedgerEntry :=
  ⟨m.credit, m.creditSeq, m.txn, .credit, mv.amount, mv.currency, mv.target.walletId,
    mv.target.systemAccount, m.creditAt⟩

/-- The two legs in the order they are inserted: a deposit credits first. -/
def legs : List LedgerEntry :=
  match mv.type with
  | .deposit => [mv.credit m, mv.debit m]
  | _ => [mv.debit m, mv.credit m]

/-- The wallet the event is about: the one debited, or the one a deposit credits. -/
def subject : Uuid := (mv.source.walletId.or mv.target.walletId).getD 0

/-- The other wallet of a transfer. -/
def counterparty : Option Uuid := mv.source.walletId.bind (fun _ => mv.target.walletId)

/-- The outbox event. -/
def event : OutboxEvent :=
  { id := m.event
    aggregateType := "transaction"
    aggregateId := m.txn
    eventType := "transaction.completed"
    payload :=
      { transactionId := m.txn
        type := mv.type.value
        status := TransactionStatus.completed.value
        currency := mv.currency
        amount := mv.amount
        walletId := mv.subject
        counterpartyWalletId := mv.counterparty
        occurredAt := m.occurredAt }
    createdAt := m.eventAt
    publishedAt := none }

/-- The wallets whose balance changes, with the new balance. -/
def dirty : List Wallet := mv.source.dirty (-mv.amount) ++ mv.target.dirty mv.amount

/-- A wallet whose balance changes is on one of the sides. -/
theorem mem_dirty {mv : Movement} {w : Wallet} : w ∈ mv.dirty
    ↔ (∃ v, mv.source = .wallet v
        ∧ w = { v with availableBalance := v.availableBalance + -mv.amount })
      ∨ ∃ v, mv.target = .wallet v
        ∧ w = { v with availableBalance := v.availableBalance + mv.amount } := by
  have hside : ∀ (s : Side) (delta : Int), w ∈ s.dirty delta
      ↔ ∃ v, s = .wallet v ∧ w = { v with availableBalance := v.availableBalance + delta } := by
    intro s delta
    cases s with
    | wallet v => simp [Side.dirty]
    | funding => simp [Side.dirty]
  rw [dirty, List.mem_append, hside, hside]

/-- The balance updates, in the order one flush sends them. -/
def balances : List Write :=
  (TransactionRepository.inKeyOrder mv.dirty).map
    (fun w => .setBalance w.id w.availableBalance (m.updatedAt w.id))

/-- Everything a movement writes. -/
def writes : List Write :=
  .insertTransaction (mv.header m) :: (mv.legs m).map .insertEntry
    ++ .setStatus m.txn .completed :: mv.balances m ++ [.insertEvent (mv.event m)]

/-- The sides fit the type. -/
def Shaped : Prop :=
  match mv.type with
  | .deposit => mv.source = .funding ∧ ∃ w, mv.target = .wallet w
  | .transfer => ∃ s r : Wallet, mv.source = .wallet s ∧ mv.target = .wallet r ∧ s.id ≠ r.id
  | .withdrawal => (∃ w, mv.source = .wallet w) ∧ mv.target = .funding

/-- The values fit their columns. -/
structure Fits (mv : Movement) : Prop where
  currency : mv.currency.length ≤ 3
  key : ∀ k ∈ mv.key, k.length ≤ 255
  amount : fitsBigint mv.amount = true
  balances : ∀ w ∈ mv.dirty, checkBalance w.availableBalance = none

/-- The movement is possible: current rows of the right currency, enough money, an
unbound key. -/
structure Ok (db : Db) (mv : Movement) : Prop where
  amount_pos : 0 < mv.amount
  fits : mv.Fits
  shaped : mv.Shaped
  source : ∀ w, mv.source = .wallet w →
    db.wallets.get w.id = some w ∧ w.currency = mv.currency ∧ mv.amount ≤ w.availableBalance
  target : ∀ w, mv.target = .wallet w →
    db.wallets.get w.id = some w ∧ w.currency = mv.currency
  key : ∀ k ∈ mv.key, db.transactionByKey k = none

end Movement

/-- The drawn ids are unused. -/
structure Minted.Unused (db : Db) (m : Minted) : Prop where
  txn : db.transactions.get m.txn = none
  debit : db.ledgerEntries.get m.debit = none
  credit : db.ledgerEntries.get m.credit = none
  distinct : m.debit ≠ m.credit
  event : db.outboxEvents.get m.event = none

/-- A write set says which header it inserts. -/
theorem Movement.writes_header {mv mv' : Movement} {m m' : Minted}
    (h : mv.writes m = mv'.writes m') :
    mv.header m = mv'.header m' := by
  unfold Movement.writes at h
  simp only [List.cons_append, List.cons.injEq, Write.insertTransaction.injEq] at h
  exact h.1

/-- It says which legs it inserts. -/
theorem Movement.writes_legs {mv mv' : Movement} {m m' : Minted} (h : mv.writes m = mv'.writes m') :
    mv.debit m = mv'.debit m' ∧ mv.credit m = mv'.credit m' := by
  have htype : mv.type = mv'.type := congrArg Transaction.type (Movement.writes_header h)
  unfold Movement.writes Movement.legs at h
  rw [htype] at h
  cases ht : mv'.type with
  | deposit => simp_all
  | transfer => simp_all
  | withdrawal => simp_all

/-- And which event. -/
theorem Movement.writes_event {mv mv' : Movement} {m m' : Minted}
    (h : mv.writes m = mv'.writes m') :
    mv.event m = mv'.event m' := by
  have hlast : ∀ (mv : Movement) (m : Minted),
      (mv.writes m).getLast? = some (.insertEvent (mv.event m)) := by
    intro mv m
    unfold Movement.writes
    rw [List.getLast?_append]
    rfl
  have heq := hlast mv m
  rw [h, hlast] at heq
  injection heq with heq
  injection heq with heq
  exact heq.symm

/-- What a write set needs to be unused is in the write set. -/
theorem Minted.Unused.ofWrites {mv mv' : Movement} {m m' : Minted} {db : Db}
    (h : mv.writes m = mv'.writes m') (hu : m'.Unused db) : m.Unused db := by
  have htxn : m.txn = m'.txn := congrArg Transaction.id (Movement.writes_header h)
  have hdebit : m.debit = m'.debit := congrArg LedgerEntry.id (Movement.writes_legs h).1
  have hcredit : m.credit = m'.credit := congrArg LedgerEntry.id (Movement.writes_legs h).2
  have hevent : m.event = m'.event := congrArg OutboxEvent.id (Movement.writes_event h)
  exact ⟨htxn ▸ hu.txn, hdebit ▸ hu.debit, hcredit ▸ hu.credit,
    by rw [hdebit, hcredit]; exact hu.distinct, hevent ▸ hu.event⟩

/-! ## Its effect on a database -/

/-- Apply a write set to a database. -/
abbrev Db.applyAll (db : Db) (ws : List Write) : Db := engine.applyAll db ws

theorem Db.applyAll_cons (db : Db) (w : Write) (ws : List Write) :
    db.applyAll (w :: ws) = (db.apply w).applyAll ws := rfl

@[simp] theorem Db.applyAll_nil (db : Db) : db.applyAll [] = db := rfl

theorem Db.applyAll_append (db : Db) (ws ws' : List Write) :
    db.applyAll (ws ++ ws') = (db.applyAll ws).applyAll ws' := by
  simp [Db.applyAll, Engine.applyAll, List.foldl_append]

/-- The wallet table with one side moved by `delta`. -/
def Side.post (s : Side) (delta : Int) (m : Minted) (t : Table Wallet Uuid Wallet.id) :
    Table Wallet Uuid Wallet.id :=
  match s with
  | .wallet w =>
      t.modify w.id (Wallet.setBalance (w.availableBalance + delta)
        (m.updatedAt w.id)) (fun _ => rfl)
  | .funding => t

/-- What a movement does to the tables. -/
structure Posted (mv : Movement) (m : Minted) (db db' : Db) : Prop where
  users : db'.users = db.users
  wallets : db'.wallets = mv.target.post mv.amount m (mv.source.post (-mv.amount) m db.wallets)
  transactions : db'.transactions.rows = db.transactions.rows ++ [mv.txn m]
  entries : db'.ledgerEntries.rows = db.ledgerEntries.rows ++ mv.legs m
  events : db'.outboxEvents.rows = db.outboxEvents.rows ++ [mv.event m]
  processed : db'.processedEvents = db.processedEvents
  stats : db'.transactionStats = db.transactionStats

namespace Movement

variable {mv : Movement} {m : Minted} {db : Db}

/-- The balance updates touch the wallets and nothing else, in either order. -/
theorem applyAll_balances (hs : mv.Shaped) (db : Db) :
    db.applyAll (mv.balances m)
      = { db with
          wallets := mv.target.post mv.amount m (mv.source.post (-mv.amount) m db.wallets) } := by
  unfold balances dirty
  unfold Shaped at hs
  cases ht : mv.type with
  | deposit =>
      rw [ht] at hs
      obtain ⟨h₁, w, h₂⟩ := hs
      rw [h₁, h₂]
      rfl
  | withdrawal =>
      rw [ht] at hs
      obtain ⟨⟨w, h₁⟩, h₂⟩ := hs
      rw [h₁, h₂]
      rfl
  | transfer =>
      rw [ht] at hs
      obtain ⟨s, r, h₁, h₂, hne⟩ := hs
      rw [h₁, h₂]
      by_cases hle : s.id ≤ r.id
      · simp only [Side.dirty, List.cons_append, List.nil_append, TransactionRepository.inKeyOrder,
          List.insertionSort_cons, List.insertionSort_nil, List.orderedInsert_nil,
          List.orderedInsert_cons, hle, if_true]
        rfl
      · simp only [Side.dirty, List.cons_append, List.nil_append, TransactionRepository.inKeyOrder,
          List.insertionSort_cons, List.insertionSort_nil, List.orderedInsert_nil,
          List.orderedInsert_cons, hle, if_false]
        have := Table.modify_comm db.wallets hne
          (f := Wallet.setBalance (s.availableBalance + -mv.amount) (m.updatedAt s.id))
          (g := Wallet.setBalance (r.availableBalance + mv.amount) (m.updatedAt r.id))
          (fun _ => rfl) (fun _ => rfl)
        show ({ db with wallets := _ } : Db) = _
        simp only [Side.post]
        rw [this]
        rfl

/-- The two legs are appended. -/
theorem rows_legs (db : Db) (hd : db.ledgerEntries.get m.debit = none)
    (hc : db.ledgerEntries.get m.credit = none) (hne : m.debit ≠ m.credit) :
    (db.applyAll ((mv.legs m).map .insertEntry)).ledgerEntries.rows
      = db.ledgerEntries.rows ++ mv.legs m := by
  have two : ∀ a b : LedgerEntry, db.ledgerEntries.get a.id = none →
      db.ledgerEntries.get b.id = none → a.id ≠ b.id →
      ((db.ledgerEntries.insert a).insert b).rows = db.ledgerEntries.rows ++ [a, b] := by
    intro a b ha hb hab
    rw [Table.rows_insert (by rw [Table.get_insert_ne hab]; exact hb), Table.rows_insert ha]
    simp
  unfold legs
  cases mv.type with
  | deposit => exact two (mv.credit m) (mv.debit m) hc hd hne.symm
  | transfer => exact two (mv.debit m) (mv.credit m) hd hc hne
  | withdrawal => exact two (mv.debit m) (mv.credit m) hd hc hne

/-- Inserting legs changes nothing but the legs. -/
theorem applyAll_entries (db : Db) (es : List LedgerEntry) :
    db.applyAll (es.map .insertEntry)
      = { db with ledgerEntries := (db.applyAll (es.map .insertEntry)).ledgerEntries } := by
  induction es generalizing db with
  | nil => rfl
  | cons e es ih =>
      rw [List.map_cons, Db.applyAll_cons, ih]
      rfl

/-- **What a movement leaves behind**, whatever order its pieces are written in. -/
theorem posted (hs : mv.Shaped) (hu : m.Unused db) :
    Posted mv m db (db.applyAll (mv.writes m)) := by
  have hw : db.applyAll (mv.writes m)
      = ((((db.apply (.insertTransaction (mv.header m))).applyAll ((mv.legs m).map .insertEntry)
          ).apply (.setStatus m.txn .completed)).applyAll (mv.balances m)).apply
            (.insertEvent (mv.event m)) := by
    rw [writes, Db.applyAll_append, Db.applyAll_append]
    rfl
  rw [hw, applyAll_balances hs, applyAll_entries]
  refine ⟨rfl, rfl, ?_, ?_, ?_, rfl, rfl⟩
  · exact Table.rows_insert_modify _ hu.txn
  · exact rows_legs (db.apply (.insertTransaction (mv.header m))) hu.debit hu.credit hu.distinct
  · exact Table.rows_insert hu.event

end Movement

/-! ## What is left alone -/

/-- An event but for its stamp. -/
def OutboxEvent.unstamped (e : OutboxEvent) : OutboxEvent := { e with publishedAt := none }

/-- The books are the same, and so is the outbox but for its stamps. -/
structure SameBooks (db db' : Db) : Prop where
  users : db'.users = db.users
  wallets : db'.wallets = db.wallets
  transactions : db'.transactions = db.transactions
  entries : db'.ledgerEntries = db.ledgerEntries
  events : db'.outboxEvents.rows.map OutboxEvent.unstamped
    = db.outboxEvents.rows.map OutboxEvent.unstamped

theorem SameBooks.trans {db₁ db₂ db₃ : Db} (h₁ : SameBooks db₁ db₂) (h₂ : SameBooks db₂ db₃) :
    SameBooks db₁ db₃ :=
  ⟨h₂.users.trans h₁.users, h₂.wallets.trans h₁.wallets, h₂.transactions.trans h₁.transactions,
    h₂.entries.trans h₁.entries, h₂.events.trans h₁.events⟩

/-- Stamping an event changes nothing else about it. -/
theorem rows_stamp (db : Db) (id : Uuid) (now : Time) :
    (db.apply (.setPublished id now)).outboxEvents.rows.map OutboxEvent.unstamped
      = db.outboxEvents.rows.map OutboxEvent.unstamped := by
  have hrows : (db.apply (.setPublished id now)).outboxEvents.rows
      = db.outboxEvents.rows.map (fun e => if e.id = id then e.stamp now else e) := rfl
  rw [hrows, List.map_map]
  refine List.map_congr_left (fun e _ => ?_)
  by_cases he : e.id = id
  · simp only [Function.comp_apply, he, if_true]; rfl
  · simp only [Function.comp_apply, he, if_false]

theorem sameBooks_apply (db : Db) {w : Write} (h : w.area ≠ .book) : SameBooks db (db.apply w) := by
  cases w with
  | setPublished id now => exact ⟨rfl, rfl, rfl, rfl, rows_stamp db id now⟩
  | insertProcessed p => exact ⟨rfl, rfl, rfl, rfl, rfl⟩
  | insertStat r => exact ⟨rfl, rfl, rfl, rfl, rfl⟩
  | setStat k c total => exact ⟨rfl, rfl, rfl, rfl, rfl⟩
  | _ => exact absurd rfl h

/-- **The workers keep out of the books.** -/
theorem sameBooks_applyAll {ws : List Write} (db : Db) (h : ∀ w ∈ ws, w.area ≠ .book) :
    SameBooks db (db.applyAll ws) := by
  induction ws generalizing db with
  | nil => exact ⟨rfl, rfl, rfl, rfl, rfl⟩
  | cons w ws ih =>
      exact (sameBooks_apply db (h w (by simp))).trans (ih _ (fun v hv => h v (by simp [hv])))

/-- A movement adds legs to its own new transaction only. -/
theorem entries_posted {mv : Movement} {m : Minted} {db db' : Db} (hp : Posted mv m db db')
    {id : Uuid} (h : m.txn ≠ id) : db'.entriesOfTransaction id = db.entriesOfTransaction id := by
  unfold Db.entriesOfTransaction
  rw [hp.entries, List.filter_append]
  have hlegs : ∀ e ∈ mv.legs m, e.transactionId = m.txn := by
    intro e he
    unfold Movement.legs at he
    split at he <;> rcases List.mem_pair.mp he with rfl | rfl <;> rfl
  have hnil : (mv.legs m).filter (fun e => decide (e.transactionId = id)) = [] := by
    rw [List.filter_eq_nil_iff]
    intro e he
    simpa [hlegs e he] using h
  rw [hnil, List.append_nil]

end WalletLedger
