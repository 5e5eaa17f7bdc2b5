import WalletLedger.Spec.History

/-!
# What each program can say

The areas of the statements a program can issue, whatever it is answered. A
contract about one area holds of every program that stays out of it, with no
look at what the program does (`Triple.uses`). So a change to a money operation
leaves everything proved about the publisher and the consumers alone, and the
other way round.
-/

namespace WalletLedger

open Isolation Prog

/-- `p` issues only statements of these areas. -/
def Keeps {α : Type} (areas : List Area) (p : Tx α) : Prop := p.Uses (fun q => q.area ∈ areas)

/-- A statement of the first area. -/
theorem Keeps.first {a : Area} {as : List Area} {q : Stmt} (h : q.area = a) :
    Keeps (a :: as) (query q) := .perform (h ▸ .head _)

/-- A statement of the second area. -/
theorem Keeps.second {a b : Area} {as : List Area} {q : Stmt} (h : q.area = b) :
    Keeps (a :: b :: as) (query q) := .perform (h ▸ .tail _ (.head _))

/-- A statement of the third area. -/
theorem Keeps.third {a b c : Area} {as : List Area} {q : Stmt} (h : q.area = c) :
    Keeps (a :: b :: c :: as) (query q) := .perform (h ▸ .tail _ (.tail _ (.head _)))

theorem Keeps.bind {α β : Type} {as : List Area} {p : Tx α} {f : α → Tx β} (hp : Keeps as p)
    (hf : ∀ a, Keeps as (f a)) : Keeps as (p >>= f) := Uses.bind hp hf

theorem Keeps.attempt {α : Type} {as : List Area} {p : Tx α} (hp : Keeps as p) :
    Keeps as p.attempt := Uses.attempt hp

theorem Keeps.raiseIf {as : List Area} (c : Prop) [Decidable c] (e : Exn) :
    Keeps as (Prog.raiseIf c e) := Uses.raiseIf c e

/-- More areas allow more. -/
theorem Keeps.mono {α : Type} {as bs : List Area} {p : Tx α} (hp : Keeps as p) (h : as ⊆ bs) :
    Keeps bs p := Uses.mono hp (fun _ hq => h hq)

/-! ## Repositories and helpers -/

theorem keeps_lockEach (ids : List Uuid) :
    Keeps [.plain, .book] (WalletRepository.lockEach ids) := by
  induction ids with
  | nil => trivial
  | cons id ids ih => exact .bind (.first rfl) (fun _ => .bind ih (fun _ => trivial))

theorem keeps_create (type : TransactionType) (currency : String) (key : Option String) :
    Keeps [.plain, .book] (TransactionRepository.create type currency key) :=
  .bind (.second rfl) (fun _ => .first rfl)

theorem keeps_flushWallets (ws : List Wallet) :
    Keeps [.plain, .book] (TransactionRepository.flushWallets ws) := by
  induction ws with
  | nil => trivial
  | cons w ws ih => exact .bind (.second rfl) (fun _ => ih)

theorem keeps_markCompleted (dirty : List Wallet) (txn : Transaction) :
    Keeps [.plain, .book] (TransactionRepository.markCompleted dirty txn) :=
  .bind (.second rfl) (fun _ => .bind (keeps_flushWallets _) (fun _ => trivial))

theorem keeps_recordEvent (txn : Transaction) (amount : Int) (w : Uuid) (c : Option Uuid) :
    Keeps [.plain, .book] (LedgerService.recordEvent txn amount w c) :=
  .bind (.first rfl) (fun _ => .bind (.second rfl) (fun _ => trivial))

theorem keeps_replay (key : Option String) (id : Uuid) :
    Keeps [.plain, .book] (LedgerService.replay key id) := by
  unfold LedgerService.replay
  by_cases h : LedgerService.truthy key = true
  · rw [if_pos h]
    refine .bind (.first rfl) (fun r => ?_)
    cases r with
    | some t => exact .bind (.first rfl) (fun _ => trivial)
    | none => trivial
  · rw [if_neg h]
    trivial

/-- A commit with a conflict handler around it. -/
theorem keeps_commit {α : Type} {as : List Area} {f : Except Exn Unit → Tx α}
    (hok : Keeps (.plain :: as) (f (.ok ()))) (he : ∀ e, Keeps (.plain :: as) (f (.error e))) :
    Keeps (.plain :: as) ((query .commit).attempt >>= f) := by
  refine .bind (.attempt (.first rfl)) (fun r => ?_)
  cases r with
  | ok u => exact hok
  | error e => exact he e

theorem keeps_commitKeyed (txn : Transaction) (key : Option String) (id : Uuid) :
    Keeps [.plain, .book] (LedgerService.commitKeyed txn key id) := by
  refine keeps_commit (.bind (.first rfl) (fun _ => .bind (.first rfl) (fun _ => trivial))) ?_
  intro e
  cases e with
  | db e =>
      cases e with
      | integrity =>
          show Keeps _ (query .rollback >>= _)
          refine .bind (.first rfl) (fun _ => .bind (keeps_replay key id) (fun r => ?_))
          cases r with
          | some r => trivial
          | none => trivial
      | _ => trivial
  | _ => trivial

/-! ## The services -/

theorem keeps_register [Runtime] (data : UserCreate) :
    Keeps [.plain, .book] (UserService.register data) := by
  refine .bind (.first rfl) (fun _ => .bind (.raiseIf _ _) (fun _ => .bind (.first rfl) ?_))
  refine fun _ => .bind (.bind (.second rfl) (fun _ => .first rfl)) (fun _ => ?_)
  refine keeps_commit (.first rfl) (fun e => ?_)
  cases e with
  | db e =>
      cases e with
      | integrity => exact .bind (.first rfl) (fun _ => trivial)
      | _ => trivial
  | _ => trivial

theorem keeps_createWallet [Runtime] (owner : Uuid) (data : WalletCreate) :
    Keeps [.plain, .book] (WalletService.createWallet owner data) := by
  refine .bind (.first rfl) (fun _ => .bind (.raiseIf _ _) (fun _ => ?_))
  refine .bind (.bind (.second rfl) (fun _ => .first rfl)) (fun _ => ?_)
  refine keeps_commit (.first rfl) (fun e => ?_)
  cases e with
  | db e =>
      cases e with
      | integrity => exact .bind (.first rfl) (fun _ => trivial)
      | _ => trivial
  | _ => trivial

theorem keeps_deposit [Runtime] (w u : Uuid) (data : DepositRequest) :
    Keeps [.plain, .book] (LedgerService.deposit w u data) := by
  refine .bind (.first rfl) (fun r => ?_)
  cases r with
  | none => trivial
  | some wallet =>
      refine .bind (.raiseIf _ _) (fun _ => .bind (.raiseIf _ _) (fun _ => ?_))
      refine .bind (keeps_create _ _ _) (fun _ => .bind (.second rfl) (fun _ => ?_))
      refine .bind (.second rfl) (fun _ => .bind (keeps_markCompleted _ _) (fun _ => ?_))
      refine .bind (keeps_recordEvent _ _ _ _) (fun _ => .bind (.first rfl) (fun _ => ?_))
      exact .bind (.first rfl) (fun _ => .bind (.first rfl) (fun _ => trivial))

theorem keeps_transfer [Runtime] (w u : Uuid) (data : TransferRequest) (key : Option String) :
    Keeps [.plain, .book] (LedgerService.transfer w u data key) := by
  refine .bind (.raiseIf _ _) (fun _ => .bind (keeps_replay _ _) (fun r => ?_))
  cases r with
  | some r => trivial
  | none =>
      refine .bind (keeps_lockEach _) (fun locked => ?_)
      dsimp only
      cases (locked.lookup w).join with
      | none => trivial
      | some sender =>
          refine .bind (.raiseIf _ _) (fun _ => ?_)
          cases (locked.lookup data.recipientWalletId).join with
          | none => trivial
          | some recipient =>
              refine .bind (.raiseIf _ _) (fun _ => .bind (.raiseIf _ _) (fun _ => ?_))
              refine .bind (.raiseIf _ _) (fun _ => .bind (keeps_create _ _ _) (fun _ => ?_))
              refine .bind (.second rfl) (fun _ => .bind (.second rfl) (fun _ => ?_))
              exact .bind (keeps_markCompleted _ _)
                (fun _ => .bind (keeps_recordEvent _ _ _ _) (fun _ => keeps_commitKeyed _ _ _))

theorem keeps_withdraw [Runtime] (w u : Uuid) (data : WithdrawalRequest) (key : Option String) :
    Keeps [.plain, .book] (LedgerService.withdraw w u data key) := by
  refine .bind (keeps_replay _ _) (fun r => ?_)
  cases r with
  | some r => trivial
  | none =>
      refine .bind (.first rfl) (fun r => ?_)
      cases r with
      | none => trivial
      | some wallet =>
          refine .bind (.raiseIf _ _) (fun _ => .bind (.raiseIf _ _) (fun _ => ?_))
          refine .bind (.raiseIf _ _) (fun _ => .bind (keeps_create _ _ _) (fun _ => ?_))
          refine .bind (.second rfl) (fun _ => .bind (.second rfl) (fun _ => ?_))
          exact .bind (keeps_markCompleted _ _)
            (fun _ => .bind (keeps_recordEvent _ _ _ _) (fun _ => keeps_commitKeyed _ _ _))

theorem keeps_increment (currency type : String) (amount : Int) :
    Keeps [.plain, .inbox] (TransactionStatRepository.increment currency type amount) := by
  refine .bind (.first rfl) (fun r => ?_)
  cases r with
  | none => exact .second rfl
  | some stat => exact .second rfl

theorem keeps_handleEvent (p : Payload) :
    Keeps [.plain, .inbox] (AnalyticsService.handleEvent p) := by
  refine .bind (.bind (.first rfl) (fun _ => trivial)) (fun b => ?_)
  cases b with
  | true => trivial
  | false =>
      refine .bind (.second rfl) (fun _ => .bind (keeps_increment _ _ _) (fun _ => ?_))
      refine keeps_commit trivial (fun e => ?_)
      cases e with
      | db e =>
          cases e with
          | integrity => exact .bind (.first rfl) (fun _ => trivial)
          | _ => trivial
      | _ => trivial

theorem keeps_handleForeign (txnId : Option Uuid) :
    Keeps [.plain, .inbox] (AnalyticsService.handleForeign txnId) := by
  cases txnId with
  | none => trivial
  | some txnId =>
      refine .bind (.bind (.first rfl) (fun _ => trivial)) (fun b => ?_)
      cases b with
      | true => trivial
      | false => exact .bind (.second rfl) (fun _ => trivial)

/-! ## The workers -/

theorem keeps_produceAll (producer : Nat) (topic : String) (events : List OutboxEvent)
    (errors : List Nat) :
    Keeps [.plain, .stamp, .send] (OutboxPublisher.produceAll producer topic events errors) := by
  induction events generalizing errors with
  | nil => trivial
  | cons e events ih => exact .bind (.third rfl) (fun _ => ih _)

theorem keeps_markAll (events : List OutboxEvent) :
    Keeps [.plain, .stamp, .send] (OutboxPublisher.markAll events) := by
  induction events with
  | nil => trivial
  | cons e events ih =>
      exact .bind (.bind (.first rfl)
        (fun _ => .bind (.second rfl) (fun _ => trivial))) (fun _ => ih)

theorem keeps_publishBatch (producer : Nat) (topic : String) (n : Nat) :
    Keeps [.plain, .stamp, .send] (OutboxPublisher.publishBatch producer topic n) := by
  refine .bind (.first rfl) (fun events => ?_)
  show Keeps _ (if events = [] then _ else _)
  by_cases h : events = []
  · rw [if_pos h]; trivial
  · rw [if_neg h]
    refine .bind (keeps_produceAll _ _ _ _) (fun _ => .bind (.third rfl) (fun _ => ?_))
    exact .bind (.raiseIf _ _) (fun _ => .bind (keeps_markAll _) (fun _ => trivial))

theorem keeps_iteration (producer : Nat) (topic : String) (n : Nat) :
    Keeps [.plain, .stamp, .send] (OutboxPublisher.iteration producer topic n) := by
  refine .bind (.attempt (.bind (keeps_publishBatch _ _ _) (fun _ => ?_))) (fun r => ?_)
  · exact .bind (.first rfl) (fun _ => trivial)
  · cases r with
    | ok n => exact .bind (.first rfl) (fun _ => trivial)
    | error e => exact .bind (.first rfl) (fun _ => .bind (.first rfl) (fun _ => trivial))

theorem keeps_handleRecord {handler : Tx Bool} (h : Keeps [.plain, .inbox] handler) (p n : Nat) :
    Keeps [.plain, .inbox, .consume] (AnalyticsConsumer.handleRecord p n handler) :=
  .bind (.attempt (h.mono (by simp))) (fun _ => .bind (.first rfl) (fun _ => .third rfl))

theorem keeps_round : Keeps [.plain, .inbox, .consume] AnalyticsConsumer.round := by
  refine .bind (.third rfl) (fun msg => ?_)
  cases msg with
  | nothing => trivial
  | error c => trivial
  | record part offset value =>
      cases value with
      | malformed => trivial
      | foreign txnId => exact keeps_handleRecord (keeps_handleForeign txnId) part offset
      | event payload => exact keeps_handleRecord (keeps_handleEvent payload) part offset

theorem keeps_guarded {p : Tx Unit} (hp : Keeps [.plain, .inbox, .consume] p) :
    Keeps [.plain, .inbox, .consume] (AnalyticsConsumer.guarded p) := by
  refine Uses.handle hp (fun r => ?_)
  cases r with
  | ok a => trivial
  | error e => exact Keeps.bind (.third rfl) (fun _ => trivial)

/-! ## The routes -/

theorem keeps_invalidate (ids : List Uuid) :
    Keeps [.plain, .book, .cache] (BalanceCache.invalidate ids) := by
  unfold BalanceCache.invalidate
  by_cases h : ids = []
  · rw [if_pos h]; trivial
  · rw [if_neg h]; exact .bind (.attempt (.third rfl)) (fun _ => trivial)

/-- A money operation and the invalidation after it. -/
theorem keeps_invalidating {α : Type} {p : Tx α} (hp : Keeps [.plain, .book] p) (ids : List Uuid) :
    Keeps [.plain, .book, .cache] (do let r ← p; BalanceCache.invalidate ids; pure r) :=
  .bind (hp.mono (by simp)) (fun _ => .bind (keeps_invalidate ids) (fun _ => trivial))

/-- The statements of the balance route. -/
def BalanceStmt (id : Uuid) (q : Stmt) : Prop :=
  q = .cacheGet id ∨ q = .selectWallet id ∨ ∃ payload, q = .cacheSetex id payload

theorem uses_orNotFound {α : Type} {P : Stmt → Prop} {p : Tx α} (hp : p.Uses P) :
    (Routes.orNotFound p).Uses P := by
  refine Uses.handle hp (fun r => ?_)
  cases r with
  | ok a => trivial
  | error e => cases e <;> trivial

theorem uses_getBalance (id u : Uuid) : (Routes.getBalance id u).Uses (BalanceStmt id) := by
  have hget : (BalanceCache.get id).Uses (BalanceStmt id) := by
    refine .bind (.attempt (.perform (.inl rfl))) (fun r => ?_)
    cases r with
    | ok payload => trivial
    | error e => trivial
  refine .bind hget (fun cached => ?_)
  cases cached with
  | some cached => exact .bind (.raiseIf _ _) (fun _ => trivial)
  | none =>
      refine .bind (uses_orNotFound (.bind (.perform (.inr (.inl rfl))) (fun r => ?_)))
        (fun wallet => ?_)
      · cases r with
        | none => trivial
        | some wallet => exact .bind (.raiseIf _ _) (fun _ => trivial)
      · refine .bind (.bind (.attempt (.perform (.inr (.inr ⟨_, rfl⟩)))) (fun _ => trivial)) ?_
        exact fun _ => trivial

/-- The statements behind `GET .../transactions`. -/
def HistoryStmt (id : Uuid) (limit offset : Nat) (q : Stmt) : Prop :=
  q = .selectWallet id ∨ q = .selectEntries id limit offset

theorem uses_listTransactions (id : Uuid) (limit offset : Nat) (u : Uuid) :
    (Routes.listTransactions id limit offset u).Uses (HistoryStmt id limit offset) := by
  refine .bind (.perform (.inl rfl)) (fun _ => ?_)
  refine .bind (.raiseIf _ _) (fun _ => ?_)
  exact .bind (.perform (.inr rfl)) (fun _ => trivial)

/-- The statements of the reconciliation job. -/
def ReconcileStmt (q : Stmt) : Prop := q = .selectLedgerBalances ∨ q = .selectWallets

theorem uses_check : ReconciliationService.check.Uses ReconcileStmt :=
  .bind (.perform (.inl rfl)) (fun _ => .bind (.perform (.inr rfl)) (fun _ => trivial))

theorem uses_withSession {α β : Type} {P : Stmt → Prop} {p : Tx α} {f : α → β} (hp : p.Uses P)
    (hc : P .close) : (withSession (f <$> p)).Uses P := by
  refine Uses.handle (Uses.map hp) (fun r => ?_)
  exact .bind (.perform hc) (fun _ => .ofExcept r)

/-! ## Every request -/

/-- The areas of a request's program. -/
def Request.areas : Request → List Area
  | .publish _ _ _ => [.plain, .stamp, .send]
  | .handleEvent _ => [.plain, .inbox]
  | .analyticsConsumer => [.plain, .inbox, .consume]
  | .register _ | .createWallet _ _ => [.plain, .book]
  | .deposit _ _ _ | .transfer _ _ _ _ | .withdraw _ _ _ _ => [.plain, .book, .cache]
  | .getBalance _ _ => [.plain, .cache]
  | .listTransactions _ _ _ _ => [.plain, .history]
  | .reconcile => [.plain]

/-- A request under `get_db` says no more than its service, and `close`. -/
theorem keeps_withSession {α β : Type} {as : List Area} {p : Tx α} {f : α → β}
    (hp : Keeps (.plain :: as) p) : Keeps (.plain :: as) (withSession (f <$> p)) :=
  uses_withSession hp (by simp [Stmt.area])

/-- **Every program keeps to its areas.** -/
theorem Request.program_keeps [Runtime] (t : Request) : Keeps t.areas t.program := by
  cases t with
  | register data => exact keeps_withSession (keeps_register data)
  | createWallet o data => exact keeps_withSession (keeps_createWallet o data)
  | deposit w u data => exact keeps_withSession (keeps_invalidating (keeps_deposit w u data) _)
  | transfer w u data key =>
      exact keeps_withSession (keeps_invalidating (keeps_transfer w u data key) _)
  | withdraw w u data key =>
      exact keeps_withSession (keeps_invalidating (keeps_withdraw w u data key) _)
  | publish p topic n => exact Uses.map (keeps_iteration p topic n)
  | handleEvent p => exact keeps_withSession (keeps_handleEvent p)
  | analyticsConsumer =>
      exact Uses.map (Keeps.bind (.first rfl) (fun _ => keeps_guarded keeps_round))
  | getBalance w u =>
      refine keeps_withSession (Uses.mono (uses_getBalance w u) ?_)
      rintro q (rfl | rfl | ⟨payload, rfl⟩) <;> simp [Stmt.area]
  | listTransactions w limit offset u =>
      refine keeps_withSession (Uses.mono (uses_listTransactions w limit offset u) ?_)
      rintro q (rfl | rfl) <;> simp [Stmt.area]
  | reconcile =>
      refine keeps_withSession (Uses.mono uses_check ?_)
      rintro q (rfl | rfl) <;> simp [Stmt.area]

/-- So does every loop body. -/
theorem Request.next_keeps {t : Request} {p : Tx Reply} (h : t.next = some p) :
    Keeps t.areas p := by
  cases t with
  | analyticsConsumer =>
      cases h
      exact Uses.map (keeps_guarded keeps_round)
  | _ => cases h

/-! ## What one statement does to its session -/

section statement

variable {i : Sid} {t : Request} {q : Stmt} {inp : Inp} {s s' : LedgerStore}

/-- Anything but a commit leaves the database alone. -/
theorem exec_quiet {r : Except Exn q.Ans} (hx : exec engine i t q inp s = some (r, s'))
    (hq : q ≠ .commit) :
    ∃ e, run q inp i (s.db.applyAll (s.pending i)) s.aux = some e ∧ r = e.ans ∧ s'.aux = e.aux
      ∧ s'.db = s.db ∧ s'.commits = s.commits
      ∧ (s'.pending i = s.pending i ++ e.writes ∨ s'.pending i = []) := by
  obtain ⟨e, he, hr, haux, ho⟩ := exec_outcome hx
  refine ⟨e, he, hr, haux, ?_⟩
  cases ho with
  | stay _ db commits pending => exact ⟨db, commits, .inl pending⟩
  | abort _ db commits idle => exact ⟨db, commits, .inr idle.pending⟩
  | commit ctl => exact absurd ((run_within he).commit ctl) hq

/-- A commit applies what is buffered, or fails and drops it. -/
theorem exec_commit {r : Except Exn Unit} (hx : exec engine i t .commit inp s = some (r, s')) :
    s'.aux = s.aux ∧ s'.pending i = []
      ∧ ((∃ e, inp.fault = some e ∧ r = .error (.db e) ∧ s'.db = s.db ∧ s'.commits = s.commits)
        ∨ (inp.fault = none ∧ r = .ok () ∧ s'.db = s.db.applyAll (s.pending i)
          ∧ s'.commits = Store.record s.commits i t (s.pending i))) := by
  obtain ⟨e, he, hr, haux, ho⟩ := exec_outcome hx
  cases hf : inp.fault with
  | some x =>
      rw [show engine.run .commit inp i _ _
        = some (failed s.aux x []) by simp [engine, run, hf]] at he
      cases he
      cases ho with
      | stay ctl => exact absurd ctl (by simp [failed])
      | commit ctl => exact absurd ctl (by simp [failed])
      | abort _ db commits idle => exact ⟨haux, idle.pending, .inl ⟨x, rfl, hr, db, commits⟩⟩
  | none =>
      rw [show engine.run .commit inp i _ _
        = some { ctl := .commit, ans := .ok (), aux := s.aux } by
        simp [engine, run, hf]] at he
      cases he
      cases ho with
      | stay ctl => exact absurd ctl (by simp)
      | abort ctl => exact absurd ctl (by simp)
      | commit _ db commits idle => exact ⟨haux, idle.pending, .inr ⟨rfl, hr, db, commits⟩⟩

/-- A statement that writes nothing adds nothing to what is buffered. -/
theorem pending_subset {r : Except Exn q.Ans} (hx : exec engine i t q inp s = some (r, s'))
    (hc : q ≠ .commit)
    (hw : ∀ inp o, q.write inp o = none) : s'.pending i ⊆ s.pending i := by
  obtain ⟨e, he, -, -, -, -, hpend⟩ := exec_quiet hx hc
  rcases hpend with hpend | hpend
  · rcases (run_within he).writes with h₀ | ⟨w, -, h₁, -⟩
    · rw [hpend, h₀, List.append_nil]
      exact fun _ h => h
    · rw [hw] at h₁
      exact absurd h₁ (by simp)
  · rw [hpend]
    exact List.nil_subset _

end statement

end WalletLedger
