import WalletLedger.Spec.History

/-!
# What the books say

The properties a double-entry ledger is kept for, about a database alone, and the
invariant they follow from: every transaction is the record of some movement,
with its legs and its event, and every balance is what its legs add up to.

`Books.commit` is the one step lemma: a legal commit keeps the books.
-/

namespace WalletLedger

open Isolation

/-! ## Sums -/

namespace Db

/-- The total amount of the legs that satisfy `p`. -/
def sumLegs (db : Db) (p : LedgerEntry → Bool) : Int :=
  ((db.ledgerEntries.rows.filter p).map LedgerEntry.amount).sum

/-- What has been credited to a wallet. -/
def credits (db : Db) (walletId : Uuid) : Int :=
  db.sumLegs (fun e => decide (e.walletId = some walletId ∧ e.entryType = .credit))

/-- What has been debited from a wallet. -/
def debits (db : Db) (walletId : Uuid) : Int :=
  db.sumLegs (fun e => decide (e.walletId = some walletId ∧ e.entryType = .debit))

/-- What the outside world has been debited (`.debit`) or credited in a currency. -/
def funding (db : Db) (type : EntryType) (currency : String) : Int :=
  db.sumLegs (fun e => decide (e.systemAccount = some LedgerService.systemAccountFunding
    ∧ e.entryType = type ∧ e.currency = currency))

/-- All money held in a currency. -/
def held (db : Db) (currency : String) : Int :=
  ((db.wallets.rows.filter (fun w => decide (w.currency = currency))).map
    Wallet.availableBalance).sum

/-- The leg of a transaction on one side. -/
def leg (db : Db) (txn : Uuid) (type : EntryType) : Option LedgerEntry :=
  (db.entriesOfTransaction txn).find? (fun e => decide (e.entryType = type))

/-- The amount of a transaction, as its credit leg has it. -/
def amountOf (db : Db) (txn : Uuid) : Int := ((db.leg txn .credit).map LedgerEntry.amount).getD 0

/-- The total of the completed transactions of a type in a currency. -/
def completed (db : Db) (type : TransactionType) (currency : String) : Int :=
  ((db.transactions.rows.filter (fun t =>
      decide (t.type = type ∧ t.status = .completed ∧ t.currency = currency))).map
    (fun t => db.amountOf t.id)).sum

end Db

/-! ## The properties -/

/-- Every balance is what its legs add up to, and none is negative. -/
def Balanced (db : Db) : Prop :=
  ∀ w ∈ db.wallets.rows,
    w.availableBalance = db.credits w.id - db.debits w.id ∧ 0 ≤ w.availableBalance

/-- Credits less debits, taken leg by leg. -/
theorem sum_signedAmount (es : List LedgerEntry) (id : Uuid) :
    ((es.filter (fun e => decide (e.walletId = some id))).map LedgerEntry.signedAmount).sum
      = ((es.filter (fun e => decide (e.walletId = some id ∧ e.entryType = .credit))).map
          LedgerEntry.amount).sum
        - ((es.filter (fun e => decide (e.walletId = some id ∧ e.entryType = .debit))).map
          LedgerEntry.amount).sum := by
  induction es with
  | nil => rfl
  | cons e es ih =>
      by_cases hw : e.walletId = some id
      · cases ht : e.entryType with
        | credit =>
            have hs : e.signedAmount = e.amount := by rw [LedgerEntry.signedAmount, ht]
            simp only [List.filter_cons, hw, ht, hs, ih, decide_true, if_true, List.map_cons,
              List.sum_cons, and_self, reduceCtorEq, and_false, decide_false, Bool.false_eq_true,
              if_false]
            omega
        | debit =>
            have hs : e.signedAmount = -e.amount := by rw [LedgerEntry.signedAmount, ht]
            simp only [List.filter_cons, hw, ht, hs, ih, decide_true, if_true, List.map_cons,
              List.sum_cons, and_self, reduceCtorEq, and_false, decide_false, Bool.false_eq_true,
              if_false]
            omega
      · simp only [List.filter_cons, hw, ih, decide_false, Bool.false_eq_true, if_false, false_and]

/-- A balance is the signed sum of its legs. -/
theorem Balanced.signed {db : Db} (h : Balanced db) {id : Uuid} {w : Wallet}
    (hw : db.wallets.get id = some w) :
    w.availableBalance = ((db.entriesOfWallet id).map LedgerEntry.signedAmount).sum
      ∧ 0 ≤ w.availableBalance := by
  obtain ⟨hmem, hid⟩ := Table.get_eq_some.mp hw
  obtain ⟨hb, hnonneg⟩ := h w hmem
  refine ⟨?_, hnonneg⟩
  rw [hb, hid]
  exact (sum_signedAmount db.ledgerEntries.rows id).symm

/-- A leg points at exactly one of a wallet of the currency or the outside world. -/
def PointsAt (db : Db) (currency : String) (e : LedgerEntry) : Prop :=
  (∃ id w, e.walletId = some id ∧ e.systemAccount = none ∧ db.wallets.get id = some w
      ∧ w.currency = currency)
    ∨ (e.walletId = none ∧ e.systemAccount = some LedgerService.systemAccountFunding)

/-- The sides of a transaction, fixed by its type. -/
def SidesFit (type : TransactionType) (credit debit : LedgerEntry) : Prop :=
  match type with
  | .deposit => credit.walletId.isSome = true ∧ debit.walletId = none
  | .withdrawal => debit.walletId.isSome = true ∧ credit.walletId = none
  | .transfer => ∃ a b, debit.walletId = some a ∧ credit.walletId = some b ∧ a ≠ b

/-- A completed transaction with exactly two legs that balance. -/
def DoubleEntry (db : Db) (t : Transaction) : Prop :=
  t.status = .completed ∧ ∃ credit debit : LedgerEntry,
    (db.entriesOfTransaction t.id = [credit, debit] ∨ db.entriesOfTransaction t.id
      = [debit, credit])
    ∧ credit.entryType = .credit ∧ debit.entryType = .debit
    ∧ credit.amount = debit.amount ∧ 0 < credit.amount
    ∧ credit.currency = t.currency ∧ debit.currency = t.currency
    ∧ PointsAt db t.currency credit ∧ PointsAt db t.currency debit
    ∧ SidesFit t.type credit debit

/-- Money is neither made nor lost: what is held in a currency is what came in from
outside less what went out, by the legs and by the transactions. -/
def Conserved (db : Db) (currency : String) : Prop :=
  db.held currency = db.funding .debit currency - db.funding .credit currency
    ∧ db.funding .debit currency - db.funding .credit currency
        = db.completed .deposit currency - db.completed .withdrawal currency

/-- The payload of an event says what the ledger says about its transaction. -/
def Agrees (db : Db) (t : Transaction) (e : OutboxEvent) : Prop :=
  e.payload.transactionId = t.id ∧ e.payload.type = t.type.value
    ∧ e.payload.status = TransactionStatus.completed.value ∧ t.status = .completed
    ∧ e.payload.currency = t.currency
    ∧ ∃ credit debit : LedgerEntry, db.leg t.id .credit = some credit
      ∧ db.leg t.id .debit = some debit
      ∧ credit.amount = e.payload.amount ∧ debit.amount = e.payload.amount
      ∧ match t.type with
        | .deposit => credit.walletId = some e.payload.walletId
            ∧ e.payload.counterpartyWalletId = none
        | .transfer => debit.walletId = some e.payload.walletId
            ∧ e.payload.counterpartyWalletId = credit.walletId ∧ credit.walletId.isSome = true
        | .withdrawal => debit.walletId = some e.payload.walletId
            ∧ e.payload.counterpartyWalletId = none

/-- Transactions and outbox events correspond one to one, and agree. -/
def Announced (db : Db) : Prop :=
  (∀ t ∈ db.transactions.rows, ∃ e ∈ db.outboxEvents.rows, (e.aggregateId = t.id ∧ Agrees db t e)
      ∧ ∀ e' ∈ db.outboxEvents.rows, e'.aggregateId = t.id → e' = e)
    ∧ ∀ e ∈ db.outboxEvents.rows, ∃ t ∈ db.transactions.rows, t.id = e.aggregateId
      ∧ ∀ t' ∈ db.transactions.rows, t'.id = e.aggregateId → t' = t

/-! ## The invariant -/

/-- The wallet of a side, if it has one, is there and of the right currency. -/
def Side.Exists (db : Db) (currency : String) (s : Side) : Prop :=
  ∀ w, s = .wallet w → ∃ w', db.wallets.get w.id = some w' ∧ w'.currency = currency

/-- A transaction is the record of a movement, with its legs and its event. -/
structure Records (db : Db) (t : Transaction) (mv : Movement) (m : Minted) : Prop where
  txn : t = mv.txn m
  shaped : mv.Shaped
  amount_pos : 0 < mv.amount
  legs : db.entriesOfTransaction t.id = mv.legs m
  source : mv.source.Exists db mv.currency
  target : mv.target.Exists db mv.currency
  event : (db.outboxEvents.rows.filter (fun e => decide (e.aggregateId = t.id))).map
    OutboxEvent.unstamped = [mv.event m]

/-- The invariant of the books. -/
structure Books (db : Db) : Prop where
  /-- Legs are on wallets that exist. -/
  linked : ∀ e ∈ db.ledgerEntries.rows, ∀ id, e.walletId = some id
    → (db.wallets.get id).isSome = true
  /-- Legs are of transactions that exist. -/
  owned : ∀ e ∈ db.ledgerEntries.rows, (db.transactions.get e.transactionId).isSome = true
  /-- Events are of transactions that exist. -/
  announced : ∀ e ∈ db.outboxEvents.rows, (db.transactions.get e.aggregateId).isSome = true
  /-- Transactions are records of movements. -/
  recorded : ∀ t ∈ db.transactions.rows, ∃ mv m, Records db t mv m
  /-- No key is bound twice. -/
  keys : ∀ t ∈ db.transactions.rows, ∀ t' ∈ db.transactions.rows, ∀ k,
    t.idempotencyKey = some k → t'.idempotencyKey = some k → t = t'
  balanced : Balanced db
  conserved : ∀ c, Conserved db c

theorem books_empty : Books .empty where
  linked := by intro e he; exact absurd he (by simp [Db.empty])
  owned := by intro e he; exact absurd he (by simp [Db.empty])
  announced := by intro e he; exact absurd he (by simp [Db.empty])
  recorded := by intro t ht; exact absurd ht (by simp [Db.empty])
  keys := by intro t ht; exact absurd ht (by simp [Db.empty])
  balanced := by intro w hw; exact absurd hw (by simp [Db.empty])
  conserved := by
    intro c
    simp [Conserved, Db.held, Db.funding, Db.completed, Db.sumLegs, Db.empty]

/-! ## Commits that keep out of the books -/

section same

variable {db db' : Db}

/-- Filtering events by transaction does not look at stamps. -/
theorem filter_unstamped (l : List OutboxEvent) (id : Uuid) :
    (l.filter (fun e => decide (e.aggregateId = id))).map OutboxEvent.unstamped
      = (l.map OutboxEvent.unstamped).filter (fun e => decide (e.aggregateId = id)) := by
  rw [List.filter_map]
  rfl

theorem Books.same (h : Books db) (hw : db'.wallets = db.wallets)
    (ht : db'.transactions = db.transactions) (he : db'.ledgerEntries = db.ledgerEntries)
    (ho : db'.outboxEvents.rows.map OutboxEvent.unstamped
      = db.outboxEvents.rows.map OutboxEvent.unstamped) : Books db' where
  linked := by rw [he, hw]; exact h.linked
  owned := by rw [he, ht]; exact h.owned
  announced := by
    intro e hmem
    have hu : e.unstamped ∈ db.outboxEvents.rows.map OutboxEvent.unstamped := by
      rw [← ho]; exact List.mem_map_of_mem hmem
    obtain ⟨e₀, h₀, heq⟩ := List.mem_map.mp hu
    have hagg : e₀.unstamped.aggregateId = e.unstamped.aggregateId := by rw [heq]
    have hagg : e₀.aggregateId = e.aggregateId := hagg
    rw [ht, ← hagg]
    exact h.announced e₀ h₀
  recorded := by
    rw [ht]
    intro t hmem
    obtain ⟨mv, m, hr⟩ := h.recorded t hmem
    refine ⟨mv, m, hr.txn, hr.shaped, hr.amount_pos, ?_, ?_, ?_, ?_⟩
    · rw [Db.entriesOfTransaction, he]; exact hr.legs
    · intro w hs; rw [hw]; exact hr.source w hs
    · intro w hs; rw [hw]; exact hr.target w hs
    · rw [filter_unstamped, ho, ← filter_unstamped]; exact hr.event
  keys := by rw [ht]; exact h.keys
  balanced := by
    intro w hmem
    rw [hw] at hmem
    simpa only [Db.credits, Db.debits, Db.sumLegs, he] using h.balanced w hmem
  conserved := by
    intro c
    have := h.conserved c
    simpa only [Conserved, Db.held, Db.funding, Db.completed, Db.amountOf, Db.leg,
      Db.entriesOfTransaction, Db.sumLegs, he, hw, ht] using this

/-- A wallet that does not exist yet has no legs. -/
theorem sumLegs_absent (h : Books db) {id : Uuid} (hid : db.wallets.get id = none)
    (type : EntryType) :
    db.sumLegs (fun e => decide (e.walletId = some id ∧ e.entryType = type)) = 0 := by
  unfold Db.sumLegs
  rw [List.filter_eq_nil_iff.mpr]
  · rfl
  · intro e he hp
    simp only [decide_eq_true_eq] at hp
    have := h.linked e he id hp.1
    rw [hid] at this
    exact absurd this (by simp)

/-- A new, empty wallet. -/
theorem Books.newWallet (h : Books db) {w : Wallet} (hb : w.availableBalance = 0)
    (hid : db.wallets.get w.id = none) : Books (db.apply (.insertWallet w)) where
  linked := by
    intro e he id hw
    obtain ⟨w', hw'⟩ := Option.isSome_iff_exists.mp (h.linked e he id hw)
    exact Option.isSome_iff_exists.mpr ⟨w', Table.get_insert_of_some hw'⟩
  owned := h.owned
  announced := h.announced
  recorded := by
    intro t ht
    obtain ⟨mv, m, hr⟩ := h.recorded t ht
    have keep : ∀ s : Side, s.Exists db mv.currency →
        s.Exists (db.apply (.insertWallet w)) mv.currency := by
      intro s hs x hx
      obtain ⟨w', hw', hc⟩ := hs x hx
      exact ⟨w', Table.get_insert_of_some hw', hc⟩
    exact ⟨mv, m, { hr with source := keep _ hr.source, target := keep _ hr.target }⟩
  keys := h.keys
  balanced := by
    intro x hx
    rcases (Table.mem_insert hid).mp hx with hx | rfl
    · exact h.balanced x hx
    · show x.availableBalance = db.credits x.id - db.debits x.id ∧ _
      rw [hb, Db.credits, Db.debits, sumLegs_absent h hid, sumLegs_absent h hid]
      simp
  conserved := by
    intro c
    refine ⟨?_, (h.conserved c).2⟩
    have hheld : (db.apply (.insertWallet w)).held c = db.held c := by
      show (((db.wallets.insert w).rows.filter _).map _).sum = _
      rw [Table.rows_insert hid, List.filter_append, List.map_append, List.sum_append]
      by_cases hc : w.currency = c
      · simp [Db.held, hc, hb]
      · simp [Db.held, hc]
    rw [hheld]
    exact (h.conserved c).1

end same

/-! ## A movement -/

section posted

variable {mv : Movement} {m : Minted} {db db' : Db}

/-- What a side moves a wallet's balance by. -/
def Side.delta (s : Side) (d : Int) (id : Uuid) : Int := if s.walletId = some id then d else 0

/-- A movement adds its amount once on either side. -/
theorem sumLegs_posted (hp : Posted mv m db db') (p : LedgerEntry → Bool) :
    db'.sumLegs p = db.sumLegs p + (if p (mv.debit m) then mv.amount else 0)
      + (if p (mv.credit m) then mv.amount else 0) := by
  have two : ∀ a b : LedgerEntry, (([a, b].filter p).map LedgerEntry.amount).sum
      = (if p a then a.amount else 0) + (if p b then b.amount else 0) := by
    intro a b
    cases ha : p a <;> cases hb : p b <;> simp [ha, hb]
  unfold Db.sumLegs
  rw [hp.entries, List.filter_append, List.map_append, List.sum_append, add_assoc]
  congr 1
  unfold Movement.legs
  cases mv.type with
  | deposit => rw [two, add_comm]; rfl
  | transfer => rw [two]; rfl
  | withdrawal => rw [two]; rfl

theorem credits_posted (hp : Posted mv m db db') (id : Uuid) :
    db'.credits id = db.credits id + mv.target.delta mv.amount id := by
  rw [Db.credits, sumLegs_posted hp]
  simp [Movement.debit, Movement.credit, Side.delta, Db.credits]

theorem debits_posted (hp : Posted mv m db db') (id : Uuid) :
    db'.debits id = db.debits id + mv.source.delta mv.amount id := by
  rw [Db.debits, sumLegs_posted hp]
  simp [Movement.debit, Movement.credit, Side.delta, Db.debits]

/-- The rows of the wallet table once a side has moved. -/
theorem mem_post {s : Side} {d : Int} {t : Table Wallet Uuid Wallet.id}
    (hs : ∀ w, s = .wallet w → t.get w.id = some w) {w' : Wallet} (h : w' ∈ (s.post d m t).rows) :
    ∃ w ∈ t.rows, w'.id = w.id ∧ w'.availableBalance = w.availableBalance + s.delta d w.id := by
  cases s with
  | funding => exact ⟨w', h, rfl, by simp [Side.delta, Side.walletId]⟩
  | wallet x =>
      have h : w' ∈ t.rows.map (fun a => if a.id = x.id then
          Wallet.setBalance (x.availableBalance + d) (m.updatedAt x.id) a else a) := h
      obtain ⟨w, hw, rfl⟩ := List.mem_map.mp h
      refine ⟨w, hw, ?_⟩
      by_cases hid : w.id = x.id
      · have hwx : w = x := by
          have := Table.get_of_mem hw
          rw [hid, hs x rfl] at this
          exact (Option.some.inj this).symm
        subst hwx
        simp [Side.delta, Side.walletId, Wallet.setBalance]
      · have hid' : ¬x.id = w.id := fun he => hid he.symm
        simp [Side.delta, Side.walletId, hid, hid']

/-- A row keeps its id and currency when a side moves. -/
theorem get_post {s : Side} {d : Int} {t : Table Wallet Uuid Wallet.id} {id : Uuid} {w : Wallet}
    (h : t.get id = some w) : ∃ w', (s.post d m t).get id = some w' ∧ w'.currency = w.currency := by
  cases s with
  | funding => exact ⟨w, h, rfl⟩
  | wallet x =>
      exact Table.get_modify_some (f := Wallet.setBalance (x.availableBalance + d)
        (m.updatedAt x.id))
        (by intro; rfl) (R := fun a b => b.currency = a.currency) h rfl rfl

/-- One account, with some balance. -/
structure SameAccount (x y : Wallet) : Prop where
  id : y.id = x.id
  userId : y.userId = x.userId
  currency : y.currency = x.currency
  lockedBalance : y.lockedBalance = x.lockedBalance
  createdAt : y.createdAt = x.createdAt

theorem SameAccount.refl (x : Wallet) : SameAccount x x := ⟨rfl, rfl, rfl, rfl, rfl⟩

theorem SameAccount.trans {x y z : Wallet} (h₁ : SameAccount x y) (h₂ : SameAccount y z) :
    SameAccount x z :=
  ⟨h₂.id.trans h₁.id, h₂.userId.trans h₁.userId, h₂.currency.trans h₁.currency,
    h₂.lockedBalance.trans h₁.lockedBalance, h₂.createdAt.trans h₁.createdAt⟩

/-- A side moves the balance of its own wallet and touches no other row. -/
theorem balance_post {s : Side} {d : Int} {t : Table Wallet Uuid Wallet.id} {id : Uuid} {x : Wallet}
    (hs : ∀ w, s = .wallet w → t.get w.id = some w) (h : t.get id = some x) :
    ∃ y, (s.post d m t).get id = some y ∧ SameAccount x y
      ∧ y.availableBalance = x.availableBalance + s.delta d id
        ∧ (s.walletId ≠ some id → y = x) := by
  cases s with
  | funding => exact ⟨x, h, .refl x, by simp [Side.delta, Side.walletId], fun _ => rfl⟩
  | wallet w =>
      by_cases hid : id = w.id
      · subst hid
        have hwx : w = x := Option.some.inj ((hs w rfl).symm.trans h)
        subst hwx
        refine ⟨_, (Table.get_modify_self (by intro; rfl)).trans (congrArg _ h),
          ⟨rfl, rfl, rfl, rfl, rfl⟩,
          ?_, fun hne => absurd rfl hne⟩
        simp [Side.delta, Side.walletId, Wallet.setBalance]
      · refine ⟨x, (Table.get_modify_ne (by intro; rfl) hid).trans h, .refl x, ?_, fun _ => rfl⟩
        have hne : ¬w.id = id := fun he => hid he.symm
        simp [Side.delta, Side.walletId, hne]

/-- The money held in a currency once a side has moved. -/
theorem held_post {s : Side} {d : Int} {t : Table Wallet Uuid Wallet.id} {currency c : String}
    (hs : ∀ w, s = .wallet w → t.get w.id = some w ∧ w.currency = currency) :
    ((((s.post d m t).rows.filter (fun w => decide (w.currency = c))).map
        Wallet.availableBalance).sum)
      = ((t.rows.filter (fun w => decide (w.currency = c))).map Wallet.availableBalance).sum
        + if s.walletId.isSome ∧ currency = c then d else 0 := by
  have ite : ∀ l : List Wallet,
      ((l.filter (fun w => decide (w.currency = c))).map Wallet.availableBalance).sum
        = (l.map (fun w => if w.currency = c then w.availableBalance else 0)).sum := by
    intro l
    induction l with
    | nil => rfl
    | cons w l ih => by_cases hc : w.currency = c <;> simp [hc, ih]
  cases s with
  | funding => simp [Side.post, Side.walletId]
  | wallet x =>
      obtain ⟨hx, hcur⟩ := hs x rfl
      rw [ite, ite]
      have hsum := Table.sum_modify (t := t) (k := x.id) (a := x)
        (f := Wallet.setBalance (x.availableBalance + d) (m.updatedAt x.id)) (by intro; rfl)
        (fun w => if w.currency = c then w.availableBalance else 0) hx
      refine hsum.trans ?_
      by_cases hc : currency = c
      · simp [Wallet.setBalance, Side.walletId, hcur, hc]
      · simp [Wallet.setBalance, Side.walletId, hcur, hc]

theorem mem_legs {e : LedgerEntry} : e ∈ mv.legs m ↔ e = mv.debit m ∨ e = mv.credit m := by
  unfold Movement.legs
  cases mv.type with
  | deposit => simp [or_comm]
  | transfer => simp
  | withdrawal => simp

/-- The target's row is still as read when the source has moved. -/
theorem get_source_post (hok : mv.Ok db) {w : Wallet} (hw : mv.target = .wallet w) :
    (mv.source.post (-mv.amount) m db.wallets).get w.id = some w := by
  have hget := (hok.target w hw).1
  have hs := hok.shaped
  unfold Movement.Shaped at hs
  cases ht : mv.type with
  | deposit =>
      rw [ht] at hs
      rw [hs.1]
      exact hget
  | withdrawal =>
      rw [ht] at hs
      rw [hs.2] at hw
      exact absurd hw (by simp)
  | transfer =>
      rw [ht] at hs
      obtain ⟨s, r, hsrc, htgt, hne⟩ := hs
      rw [htgt] at hw
      cases hw
      rw [hsrc]
      exact (Table.get_modify_ne (by intro; rfl) (fun he => hne he.symm)).trans hget

/-- **What a movement does to a wallet**: its balance moves by what the sides say, and
a wallet on neither side keeps its row. -/
theorem balance_posted (hok : mv.Ok db) (hp : Posted mv m db db') {id : Uuid} {x : Wallet}
    (h : db.wallets.get id = some x) :
    ∃ y, db'.wallets.get id = some y ∧ SameAccount x y
      ∧ y.availableBalance
          = x.availableBalance + mv.source.delta (-mv.amount) id + mv.target.delta mv.amount id
      ∧ (mv.source.walletId ≠ some id → mv.target.walletId ≠ some id → y = x) := by
  obtain ⟨y, hy, hsame, hb, hkeep⟩ := balance_post (d := -mv.amount) (m := m)
    (fun w hw => (hok.source w hw).1) h
  obtain ⟨z, hz, hsame', hb', hkeep'⟩ := balance_post (d := mv.amount) (m := m)
    (fun w hw => get_source_post hok hw) hy
  refine ⟨z, by rw [hp.wallets]; exact hz, hsame.trans hsame', by rw [hb', hb], ?_⟩
  intro hs ht
  rw [hkeep' ht, hkeep hs]

/-- A movement makes no wallet. -/
theorem absent_posted (hp : Posted mv m db db') {id : Uuid} (h : db.wallets.get id = none) :
    db'.wallets.get id = none := by
  have hside : ∀ (s : Side) (d : Int) (t : Table Wallet Uuid Wallet.id), t.get id = none →
      (s.post d m t).get id = none := by
    intro s d t ht
    cases s with
    | funding => exact ht
    | wallet w =>
        by_cases hid : id = w.id
        · subst hid
          exact (Table.get_modify_self (by intro; rfl)).trans (by rw [ht]; rfl)
        · exact (Table.get_modify_ne (by intro; rfl) hid).trans ht
  rw [hp.wallets]
  exact hside _ _ _ (hside _ _ _ h)

theorem wallets_posted (hp : Posted mv m db db') {id : Uuid} {w : Wallet}
    (h : db.wallets.get id = some w) :
    ∃ w', db'.wallets.get id = some w' ∧ w'.currency = w.currency := by
  obtain ⟨w₁, h₁, hc₁⟩ := get_post (s := mv.source) (d := -mv.amount) (m := m) h
  obtain ⟨w₂, h₂, hc₂⟩ := get_post (s := mv.target) (d := mv.amount) (m := m) h₁
  exact ⟨w₂, by rw [hp.wallets]; exact h₂, hc₂.trans hc₁⟩

theorem transactions_posted (hp : Posted mv m db db') {id : Uuid} :
    (db'.transactions.get id).isSome = true ↔ (db.transactions.get id).isSome = true
      ∨ id = m.txn := by
  have key : ∀ (t : Table Transaction Uuid Transaction.id) (id : Uuid),
      (t.get id).isSome = true ↔ ∃ x ∈ t.rows, x.id = id := by
    intro t id
    rw [Option.isSome_iff_exists]
    exact exists_congr (fun x => Table.get_eq_some)
  rw [key, key, hp.transactions]
  constructor
  · rintro ⟨x, hx, rfl⟩
    rcases List.mem_append.mp hx with hx | hx
    · exact .inl ⟨x, hx, rfl⟩
    · rw [List.mem_singleton] at hx
      subst hx
      exact .inr rfl
  · rintro (⟨x, hx, rfl⟩ | rfl)
    · exact ⟨x, List.mem_append_left _ hx, rfl⟩
    · exact ⟨mv.txn m, by simp, rfl⟩

/-- The new transaction has exactly the movement's legs. -/
theorem entries_new (h : Books db) (hu : m.Unused db) (hp : Posted mv m db db') :
    db'.entriesOfTransaction m.txn = mv.legs m := by
  unfold Db.entriesOfTransaction
  rw [hp.entries, List.filter_append, List.filter_eq_nil_iff.mpr, List.nil_append,
    List.filter_eq_self.mpr]
  · intro e he
    rcases mem_legs.mp he with rfl | rfl
    · simp [Movement.debit]
    · simp [Movement.credit]
  · intro e he htxn
    have := h.owned e he
    rw [decide_eq_true_eq] at htxn
    rw [htxn, hu.txn] at this
    exact absurd this (by simp)

/-- The new transaction has exactly the movement's event. -/
theorem events_new (h : Books db) (hu : m.Unused db) (hp : Posted mv m db db') :
    db'.outboxEvents.rows.filter (fun e => decide (e.aggregateId = m.txn)) = [mv.event m] := by
  rw [hp.events, List.filter_append, List.filter_eq_nil_iff.mpr, List.nil_append]
  · simp [Movement.event]
  · intro e he htxn
    have := h.announced e he
    rw [decide_eq_true_eq] at htxn
    rw [htxn, hu.txn] at this
    exact absurd this (by simp)

/-- Older transactions keep their records. -/
theorem Records.posted (hp : Posted mv m db db') {t : Transaction} {mv' : Movement} {m' : Minted}
    (hne : m.txn ≠ t.id) (h : Records db t mv' m') : Records db' t mv' m' := by
  have keep : ∀ s : Side, s.Exists db mv'.currency → s.Exists db' mv'.currency := by
    intro s hs x hx
    obtain ⟨w, hw, hc⟩ := hs x hx
    obtain ⟨w', hw', hc'⟩ := wallets_posted hp hw
    exact ⟨w', hw', hc'.trans hc⟩
  refine { h with legs := ?_, source := keep _ h.source, target := keep _ h.target, event := ?_ }
  · rw [entries_posted hp hne]; exact h.legs
  · rw [hp.events, List.filter_append]
    simpa [Movement.event, hne] using h.event

/-- The new transaction is the record of the movement. -/
theorem Books.record_posted (h : Books db) (hok : mv.Ok db) (hu : m.Unused db)
    (hp : Posted mv m db db') : Records db' (mv.txn m) mv m := by
  refine ⟨rfl, hok.shaped, hok.amount_pos, entries_new h hu hp, ?_, ?_, ?_⟩
  · intro w hw
    obtain ⟨hget, hc, -⟩ := hok.source w hw
    obtain ⟨w', hw', hc'⟩ := wallets_posted hp hget
    exact ⟨w', hw', hc'.trans hc⟩
  · intro w hw
    obtain ⟨hget, hc⟩ := hok.target w hw
    obtain ⟨w', hw', hc'⟩ := wallets_posted hp hget
    exact ⟨w', hw', hc'.trans hc⟩
  · show (db'.outboxEvents.rows.filter (fun e => decide (e.aggregateId = m.txn))).map _ = _
    rw [events_new h hu hp]
    rfl

theorem Books.recorded_posted (h : Books db) (hok : mv.Ok db) (hu : m.Unused db)
    (hp : Posted mv m db db') : ∀ t ∈ db'.transactions.rows, ∃ mv m, Records db' t mv m := by
  intro t ht
  rw [hp.transactions, List.mem_append, List.mem_singleton] at ht
  rcases ht with ht | rfl
  · obtain ⟨mv', m', hr⟩ := h.recorded t ht
    refine ⟨mv', m', hr.posted hp ?_⟩
    intro he
    have := Table.get_of_mem ht
    rw [← he, hu.txn] at this
    exact absurd this (by simp)
  · exact ⟨mv, m, h.record_posted hok hu hp⟩

/-- **Balances stay what the legs add up to, and stay above zero.** -/
theorem Books.balanced_posted (h : Books db) (hok : mv.Ok db) (hp : Posted mv m db db') :
    Balanced db' := by
  intro w₂ h₂
  rw [hp.wallets] at h₂
  obtain ⟨w₁, h₁, hid₁, hb₁⟩ := mem_post (fun w hw => get_source_post hok hw) h₂
  obtain ⟨w, hw, hid, hb⟩ := mem_post (fun w hw => (hok.source w hw).1) h₁
  obtain ⟨hbal, hnn⟩ := h.balanced w hw
  have hid₂ : w₂.id = w.id := hid₁.trans hid
  rw [hid₂, credits_posted hp, debits_posted hp]
  rw [hid] at hb₁
  have hneg : mv.source.delta (-mv.amount) w.id = -mv.source.delta mv.amount w.id := by
    unfold Side.delta; split <;> simp
  have htgt : 0 ≤ mv.target.delta mv.amount w.id := by
    have := hok.amount_pos
    unfold Side.delta
    split <;> omega
  -- the source covers the amount: its row is still the one that was checked
  have hsrc : mv.source.delta mv.amount w.id ≤ w.availableBalance := by
    unfold Side.delta
    split
    · rename_i hs
      cases hside : mv.source with
      | funding => rw [hside] at hs; exact absurd hs (by simp [Side.walletId])
      | wallet x =>
          rw [hside] at hs
          obtain ⟨hget, -, hfunds⟩ := hok.source x hside
          have hxw : x.id = w.id := Option.some.inj hs
          have := Table.get_of_mem hw
          rw [← hxw, hget] at this
          rw [← Option.some.inj this]
          exact hfunds
    · exact hnn
  constructor <;> omega

theorem held_posted (hok : mv.Ok db) (hp : Posted mv m db db') (c : String) :
    db'.held c = db.held c
      + (if mv.source.walletId.isSome ∧ mv.currency = c then -mv.amount else 0)
      + (if mv.target.walletId.isSome ∧ mv.currency = c then mv.amount else 0) := by
  unfold Db.held
  rw [hp.wallets,
    held_post (fun w hw => ⟨get_source_post hok hw, (hok.target w hw).2⟩),
    held_post (fun w hw => ⟨(hok.source w hw).1, (hok.source w hw).2.1⟩)]

theorem funding_posted (hp : Posted mv m db db') (c : String) :
    db'.funding .debit c = db.funding .debit c
        + (if mv.source.walletId = none ∧ mv.currency = c then mv.amount else 0)
      ∧ db'.funding .credit c = db.funding .credit c
        + (if mv.target.walletId = none ∧ mv.currency = c then mv.amount else 0) := by
  have side : ∀ s : Side, s.systemAccount = some LedgerService.systemAccountFunding
      ↔ s.walletId = none := by
    intro s
    cases s <;> simp [Side.systemAccount, Side.walletId]
  unfold Db.funding
  rw [sumLegs_posted hp, sumLegs_posted hp]
  constructor
  · simp [Movement.debit, Movement.credit, side]
  · simp [Movement.debit, Movement.credit, side]

/-- The amount of a transaction does not change later on. -/
theorem amountOf_posted (hp : Posted mv m db db') {id : Uuid} (h : m.txn ≠ id) :
    db'.amountOf id = db.amountOf id := by
  rw [Db.amountOf, Db.leg, entries_posted hp h]
  rfl

theorem amountOf_new (h : Books db) (hu : m.Unused db) (hp : Posted mv m db db') :
    db'.amountOf m.txn = mv.amount := by
  rw [Db.amountOf, Db.leg, entries_new h hu hp]
  unfold Movement.legs
  cases mv.type <;> simp [Movement.credit, Movement.debit]

theorem completed_posted (h : Books db) (hu : m.Unused db) (hp : Posted mv m db db')
    (type : TransactionType) (c : String) :
    db'.completed type c = db.completed type c
      + if mv.type = type ∧ mv.currency = c then mv.amount else 0 := by
  unfold Db.completed
  rw [hp.transactions, List.filter_append, List.map_append, List.sum_append]
  congr 1
  · refine congrArg List.sum (List.map_congr_left (fun t ht => amountOf_posted hp ?_))
    intro he
    have := Table.get_of_mem (List.mem_filter.mp ht).1
    rw [← he, hu.txn] at this
    exact absurd this (by simp)
  · by_cases hc : mv.type = type ∧ mv.currency = c
    · have hamount : db'.amountOf (mv.txn m).id = mv.amount := amountOf_new h hu hp
      simp [hc, Movement.txn, Movement.header, Transaction.setStatus] at hamount ⊢
      exact hamount
    · simp [hc, Movement.txn, Movement.header, Transaction.setStatus]

/-- **Money is conserved.** -/
theorem Books.conserved_posted (h : Books db) (hok : mv.Ok db) (hu : m.Unused db)
    (hp : Posted mv m db db') (c : String) : Conserved db' c := by
  obtain ⟨h₁, h₂⟩ := h.conserved c
  obtain ⟨hd, hc⟩ := funding_posted hp c
  have hs := hok.shaped
  unfold Conserved
  rw [held_posted hok hp, hd, hc, completed_posted h hu hp, completed_posted h hu hp]
  unfold Movement.Shaped at hs
  by_cases hcur : mv.currency = c
  · cases ht : mv.type with
    | deposit =>
        rw [ht] at hs
        obtain ⟨hsrc, w, htgt⟩ := hs
        simp [hsrc, htgt, Side.walletId, hcur]
        omega
    | transfer =>
        rw [ht] at hs
        obtain ⟨s, r, hsrc, htgt, -⟩ := hs
        simp [hsrc, htgt, Side.walletId, hcur]
        omega
    | withdrawal =>
        rw [ht] at hs
        obtain ⟨⟨w, hsrc⟩, htgt⟩ := hs
        simp [hsrc, htgt, Side.walletId, hcur]
        omega
  · simp [hcur]
    omega

theorem Books.movement (h : Books db) (hok : mv.Ok db) (hu : m.Unused db)
    (hp : Posted mv m db db') : Books db' where
  linked := by
    have old : ∀ id, (db.wallets.get id).isSome = true → (db'.wallets.get id).isSome = true := by
      intro id hid
      obtain ⟨w, hw⟩ := Option.isSome_iff_exists.mp hid
      obtain ⟨w', hw', -⟩ := wallets_posted hp hw
      exact Option.isSome_iff_exists.mpr ⟨w', hw'⟩
    have side : ∀ s : Side, (∀ w, s = .wallet w → (db.wallets.get w.id).isSome = true) →
        ∀ id, s.walletId = some id → (db'.wallets.get id).isSome = true := by
      intro s hs id hid
      cases s with
      | funding => exact absurd hid (by simp [Side.walletId])
      | wallet w =>
          cases hid
          exact old _ (hs w rfl)
    intro e he id hid
    rw [hp.entries, List.mem_append] at he
    rcases he with he | he
    · exact old id (h.linked e he id hid)
    · rcases mem_legs.mp he with rfl | rfl
      · exact side mv.source (fun w hw => by rw [(hok.source w hw).1]; rfl) id hid
      · exact side mv.target (fun w hw => by rw [(hok.target w hw).1]; rfl) id hid
  owned := by
    intro e he
    rw [hp.entries, List.mem_append] at he
    rw [transactions_posted hp]
    rcases he with he | he
    · exact .inl (h.owned e he)
    · rcases mem_legs.mp he with rfl | rfl <;> exact .inr rfl
  announced := by
    intro e he
    rw [hp.events, List.mem_append, List.mem_singleton] at he
    rw [transactions_posted hp]
    rcases he with he | rfl
    · exact .inl (h.announced e he)
    · exact .inr rfl
  recorded := h.recorded_posted hok hu hp
  keys := by
    -- a new key was unbound, so no older transaction has it
    have fresh : ∀ t ∈ db.transactions.rows, ∀ k, t.idempotencyKey = some k → mv.key ≠ some k := by
      intro t ht k hk hmv
      have hnone := hok.key k hmv
      rw [Db.transactionByKey, List.find?_eq_none] at hnone
      exact absurd hk (by simpa using hnone t ht)
    intro t ht t' ht' k hk hk'
    rw [hp.transactions, List.mem_append, List.mem_singleton] at ht ht'
    rcases ht with ht | rfl <;> rcases ht' with ht' | rfl
    · exact h.keys t ht t' ht' k hk hk'
    · exact absurd hk' (fresh t ht k hk)
    · exact absurd hk (fresh t' ht' k hk')
    · rfl
  balanced := h.balanced_posted hok hp
  conserved := h.conserved_posted hok hu hp

end posted

/-- **A legal commit keeps the books.** -/
theorem Books.commit [Runtime] {t : Request} {db : Db} {ws : List Write} (h : Books db)
    (hl : Legal t db ws) : Books (db.applyAll ws) := by
  rcases hl.cases with ⟨u, -, rfl⟩ | ⟨w, hb, hid, rfl⟩ | ⟨mv, m, -, hok, hu, rfl⟩ | hw
  · exact h.same rfl rfl rfl rfl
  · exact h.newWallet hb hid
  · exact h.movement hok hu (Movement.posted hok.shaped hu)
  · have hs := sameBooks_applyAll db hw
    exact h.same hs.wallets hs.transactions hs.entries hs.events

/-- So does a history. -/
theorem Chain.books [Runtime] {db db' : Db} {cs : List LedgerCommit} (h : Chain db cs db')
    (hb : Books db) : Books db' :=
  h.induct hb (fun _ _ _ hl hb => hb.commit hl)

/-! ## What follows from the invariant -/

section consequences

variable {db : Db} {t : Transaction} {mv : Movement} {m : Minted}

/-- A leg of an existing side points at it. -/
theorem pointsAt_side {s : Side} {currency : String} {e : LedgerEntry} (hs : s.Exists db currency)
    (hw : e.walletId = s.walletId) (ha : e.systemAccount = s.systemAccount) :
    PointsAt db currency e := by
  cases s with
  | funding => exact .inr ⟨hw, ha⟩
  | wallet w =>
      obtain ⟨w', hw', hc⟩ := hs w rfl
      exact .inl ⟨w.id, w', hw, ha, hw', hc⟩

theorem Records.doubleEntry (h : Records db t mv m) : DoubleEntry db t := by
  refine ⟨by rw [h.txn]; rfl, mv.credit m, mv.debit m, ?_, rfl, rfl, rfl, h.amount_pos,
    by rw [h.txn]; rfl, by rw [h.txn]; rfl, ?_, ?_, ?_⟩
  · rw [h.legs]
    unfold Movement.legs
    cases mv.type with
    | deposit => exact .inl rfl
    | transfer => exact .inr rfl
    | withdrawal => exact .inr rfl
  · rw [h.txn]; exact pointsAt_side h.target rfl rfl
  · rw [h.txn]; exact pointsAt_side h.source rfl rfl
  · have hs := h.shaped
    rw [h.txn]
    unfold Movement.Shaped at hs
    show SidesFit mv.type _ _
    cases ht : mv.type with
    | deposit =>
        rw [ht] at hs
        obtain ⟨hsrc, w, htgt⟩ := hs
        exact ⟨by simp [Movement.credit, htgt, Side.walletId],
          by simp [Movement.debit, hsrc, Side.walletId]⟩
    | transfer =>
        rw [ht] at hs
        obtain ⟨s, r, hsrc, htgt, hne⟩ := hs
        exact ⟨s.id, r.id, by simp [Movement.debit, hsrc, Side.walletId],
          by simp [Movement.credit, htgt, Side.walletId], hne⟩
    | withdrawal =>
        rw [ht] at hs
        obtain ⟨⟨w, hsrc⟩, htgt⟩ := hs
        exact ⟨by simp [Movement.debit, hsrc, Side.walletId],
          by simp [Movement.credit, htgt, Side.walletId]⟩

/-- The two legs, found by their side. -/
theorem Records.leg (h : Records db t mv m) :
    db.leg t.id .credit = some (mv.credit m) ∧ db.leg t.id .debit = some (mv.debit m) := by
  unfold Db.leg
  rw [h.legs]
  unfold Movement.legs
  cases mv.type <;> simp [Movement.credit, Movement.debit]

/-- The event of a movement agrees with its record, stamped or not. -/
theorem Records.agrees (h : Records db t mv m) {e : OutboxEvent} (he : e.unstamped = mv.event m) :
    Agrees db t e := by
  have hpay : e.unstamped.payload = (mv.event m).payload := by rw [he]
  have hpay : e.payload = (mv.event m).payload := hpay
  obtain ⟨hcr, hde⟩ := h.leg
  have hs := h.shaped
  unfold Agrees
  rw [hpay]
  refine ⟨by rw [h.txn]; rfl, by rw [h.txn]; rfl, rfl, by rw [h.txn]; rfl, by rw [h.txn]; rfl,
    mv.credit m, mv.debit m, hcr, hde, rfl, rfl, ?_⟩
  have htype : t.type = mv.type := by rw [h.txn]; rfl
  rw [htype]
  unfold Movement.Shaped at hs
  cases ht : mv.type with
  | deposit =>
      rw [ht] at hs
      obtain ⟨hsrc, w, htgt⟩ := hs
      simp [Movement.event, Movement.credit, Movement.subject, Movement.counterparty, hsrc, htgt,
        Side.walletId]
  | transfer =>
      rw [ht] at hs
      obtain ⟨s, r, hsrc, htgt, -⟩ := hs
      simp [Movement.event, Movement.credit, Movement.debit, Movement.subject,
        Movement.counterparty, hsrc, htgt, Side.walletId]
  | withdrawal =>
      rw [ht] at hs
      obtain ⟨⟨w, hsrc⟩, htgt⟩ := hs
      simp [Movement.event, Movement.debit, Movement.subject, Movement.counterparty, hsrc, htgt,
        Side.walletId]

theorem Books.bijection (h : Books db) : Announced db := by
  constructor
  · intro t ht
    obtain ⟨mv, m, hr⟩ := h.recorded t ht
    -- exactly one event is left when the outbox is filtered by the transaction
    have hone := hr.event
    cases hf : db.outboxEvents.rows.filter (fun e => decide (e.aggregateId = t.id)) with
    | nil => rw [hf] at hone; exact absurd hone (by simp)
    | cons e l =>
        rw [hf, List.map_cons, List.cons.injEq, List.map_eq_nil_iff] at hone
        obtain ⟨he, rfl⟩ := hone
        have hmem : e ∈ db.outboxEvents.rows.filter (fun e => decide (e.aggregateId = t.id)) := by
          rw [hf]; simp
        rw [List.mem_filter, decide_eq_true_eq] at hmem
        refine ⟨e, hmem.1, ⟨hmem.2, hr.agrees he⟩, ?_⟩
        intro e' he' hagg
        have : e' ∈ db.outboxEvents.rows.filter (fun e => decide (e.aggregateId = t.id)) := by
          rw [List.mem_filter, decide_eq_true_eq]; exact ⟨he', hagg⟩
        rw [hf] at this
        exact List.mem_singleton.mp this
  · intro e he
    obtain ⟨t, ht⟩ := Option.isSome_iff_exists.mp (h.announced e he)
    obtain ⟨hmem, hid⟩ := Table.get_eq_some.mp ht
    refine ⟨t, hmem, hid, fun t' ht' hid' => ?_⟩
    have := Table.get_of_mem ht'
    rw [hid', ht] at this
    exact (Option.some.inj this).symm

end consequences

end WalletLedger
