import WalletLedger.Isolation.Runs
import WalletLedger.Proof.Books
import WalletLedger.Spec.Accounts

/-!
# The ledger in every reachable state

Whatever requests ran, in whatever interleaving, with whatever failures: the
committed database is a legal history from the empty one, and a legal history
keeps the books.
-/

namespace WalletLedger

open Isolation

variable [Runtime]

/-! ## A run

Ann and Bob open accounts, and Ann is paid 100. The witnesses below, and those of
the modules on top of this one, continue from here.
-/

/-- A runtime for runs on ASCII data. -/
@[reducible] def plainRuntime : Runtime :=
  ⟨fun c => [c.toUpper], fun password _ => "$argon2id$" ++ password⟩

/-- A move of the system. -/
abbrev LedgerAction := Action Request Inp Move

/-- Session `i` executes `n` statements, drawing consecutive ids. -/
def advance (i : Sid) (n firstId : Nat) : List LedgerAction :=
  (List.range n).map (fun k => .exec i { uuid := firstId + k })

omit [Runtime] in
theorem inr_length : "INR".length = 3 := by decide

/-- A deposit in INR; of 1 where the amount is not positive. -/
def depositOf (amount : Int) : DepositRequest :=
  if h : 0 < amount then ⟨amount, "INR", h, inr_length⟩ else ⟨1, "INR", Int.one_pos, inr_length⟩

/-- A transfer in INR. -/
def transferOf (recipient : Uuid) (amount : Int) : TransferRequest :=
  if h : 0 < amount then ⟨recipient, amount, "INR", h, inr_length⟩
  else ⟨recipient, 1, "INR", Int.one_pos, inr_length⟩

/-- A withdrawal in INR. -/
def withdrawalOf (amount : Int) : WithdrawalRequest :=
  if h : 0 < amount then ⟨amount, "INR", h, inr_length⟩ else ⟨1, "INR", Int.one_pos, inr_length⟩

/-- Two users, and a wallet each. -/
def accounts : List LedgerAction :=
  [.spawn (.register ⟨"Ann", "ann@example.com", "secret"⟩)] ++ advance 0 7 10
    ++ [.spawn (.register ⟨"Bob", "bob@example.com", "secret"⟩)] ++ advance 1 7 20
    ++ [.spawn (.createWallet 12 ⟨"inr", by decide⟩)] ++ advance 2 6 30
    ++ [.spawn (.createWallet 22 ⟨"inr", by decide⟩)] ++ advance 3 6 40

/-- A deposit into the first wallet. -/
def payIn : List LedgerAction :=
  [.spawn (.deposit 31 12 (depositOf 100))] ++ advance 4 14 50

/-- The accounts and the deposit. -/
def opening : List LedgerAction := accounts ++ payIn

/-- Run moves from a database. -/
def runPlain (db : Db) (acts : List LedgerAction) : Option LedgerWorld :=
  (@system plainRuntime).runs (World.init (LedgerStore.start db)) acts

omit [Runtime] in
/-- Where a run ends is reachable. -/
theorem exists_runPlain {β : Type} (db : Db) (acts : List LedgerAction) (f : LedgerWorld → β)
    {v : β} (h : (runPlain db acts).map f = some v) :
    ∃ w, @ReachableFrom plainRuntime db w ∧ f w = v := by
  obtain ⟨w, hw, hv⟩ := Option.map_eq_some_iff.mp h
  exact ⟨w, Reachable.init.runs hw, hv⟩

omit [Runtime] in
/-- Where its continuation ends is later. -/
theorem exists_laterPlain {β : Type} (db : Db) (acts acts' : List LedgerAction)
    (f : LedgerWorld → LedgerWorld → β) {v : β} (h : (runPlain db acts).bind (fun w₀ =>
      ((@system plainRuntime).runs w₀ acts').map (f w₀)) = some v) :
    ∃ w₀ w, @ReachableFrom plainRuntime db w₀ ∧ Later (@system plainRuntime) w₀ w ∧ f w₀ w = v := by
  obtain ⟨w₀, hw₀, h⟩ := Option.bind_eq_some_iff.mp h
  obtain ⟨w, hw, hv⟩ := Option.map_eq_some_iff.mp h
  exact ⟨w₀, w, Reachable.init.runs hw₀, Later.refl.runs hw, hv⟩

omit [Runtime] in
theorem exists_opening : ∃ w, @ReachableFrom plainRuntime .empty w
    ∧ w.store.db.wallets.rows.map Wallet.availableBalance = [100, 0]
    ∧ w.store.db.transactions.rows.length = 1 := by
  obtain ⟨w, hr, hw⟩ := exists_runPlain .empty opening (fun w =>
    (w.store.db.wallets.rows.map Wallet.availableBalance, w.store.db.transactions.rows.length))
    (v := ([100, 0], 1)) (by decide +kernel)
  exact ⟨w, hr, congrArg Prod.fst hw, congrArg Prod.snd hw⟩

/-! ## The books -/

theorem reachable_books {w : LedgerWorld} (h : ReachableFrom .empty w) : Books w.store.db :=
  (reachable_settled h).history.books books_empty

/-- **Every balance is the sum of its legs, and none is negative.** -/
theorem reachable_balanced (w : LedgerWorld) (h : ReachableFrom .empty w) : Balanced w.store.db :=
  (reachable_books h).balanced

omit [Runtime] in
theorem opening_balanced : ∃ w, (@ReachableFrom plainRuntime .empty w
    ∧ w.store.db.wallets.rows.map Wallet.availableBalance = [100, 0]) ∧ Balanced w.store.db := by
  obtain ⟨w, hr, hb, -⟩ := exists_opening
  exact ⟨w, ⟨hr, hb⟩, @reachable_balanced plainRuntime w hr⟩

/-- **Every transaction is a completed double entry, and money is conserved in every
currency.** -/
theorem reachable_doubleEntry (w : LedgerWorld) (h : ReachableFrom .empty w) :
    (∀ t ∈ w.store.db.transactions.rows, DoubleEntry w.store.db t)
      ∧ ∀ c, Conserved w.store.db c := by
  refine ⟨fun t ht => ?_, (reachable_books h).conserved⟩
  obtain ⟨mv, m, hr⟩ := (reachable_books h).recorded t ht
  exact hr.doubleEntry

omit [Runtime] in
theorem opening_doubleEntry : ∃ w, (@ReachableFrom plainRuntime .empty w
    ∧ w.store.db.transactions.rows.length = 1)
    ∧ (∀ t ∈ w.store.db.transactions.rows, DoubleEntry w.store.db t)
    ∧ ∀ c, Conserved w.store.db c := by
  obtain ⟨w, hr, -, ht⟩ := exists_opening
  exact ⟨w, ⟨hr, ht⟩, @reachable_doubleEntry plainRuntime w hr⟩

/-- **Transactions and outbox events correspond one to one, and agree.** -/
theorem reachable_announced (w : LedgerWorld) (h : ReachableFrom .empty w) :
    Announced w.store.db :=
  (reachable_books h).bijection

omit [Runtime] in
theorem opening_announced : ∃ w, (@ReachableFrom plainRuntime .empty w
    ∧ w.store.db.transactions.rows.length = 1) ∧ Announced w.store.db := by
  obtain ⟨w, hr, -, ht⟩ := exists_opening
  exact ⟨w, ⟨hr, ht⟩, @reachable_announced plainRuntime w hr⟩

end WalletLedger
