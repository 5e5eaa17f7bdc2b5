import WalletLedger.App.Responses
import WalletLedger.Isolation.Accounts
import WalletLedger.Proof.Admission
import WalletLedger.Proof.Cache
import WalletLedger.Proof.Operations

/-!
# Refusals are true

A request that ends in an exception has a reason, and the reason was so: the wallet was missing, or
somebody else's, or in another currency, or short of money in a committed state the request has met
while it ran. What is not a refusal is the failure of one of its own statements: then the
exception is the one that very statement was answered with.

A keyed request also has to be answered, and a replay that has found no wallet in the path cannot
be: building the answer raises. That too is so in a state the request has met.

The rows a request judges by are read at different times, under locks or without. That they are
still right together where two of them matter is a fact about what accounts keep.
-/

namespace WalletLedger

open Isolation Prog

/-! ## What the ledger says against a request -/

/-- What is wrong with a wallet that `u` wants to use with a currency. -/
inductive Db.Unfit (db : Db) (id u : Uuid) (label currency : String) : Exn → Prop where
  | missing (row : db.wallets.get id = none) : Unfit db id u label currency (.walletNotFound id)
  | foreign {x : Wallet} (row : db.wallets.get id = some x) (owner : x.userId ≠ u) :
      Unfit db id u label currency (.walletAccessDenied id)
  | mismatched {x : Wallet} (row : db.wallets.get id = some x) (owner : x.userId = u)
      (differs : x.currency ≠ currency) :
      Unfit db id u label currency (.currencyMismatch (label ++ x.currency ++ " != " ++ currency))

/-- The wallet is `u`'s, in the right currency, and holds too little. -/
def Db.Short (db : Db) (id u : Uuid) (currency : String) (amount : Int) : Prop :=
  ∃ x, db.wallets.get id = some x ∧ x.userId = u ∧ x.currency = currency
    ∧ x.availableBalance < amount

section spec

variable [Runtime]

/-- A state in which a request has to be refused with an exception. -/
inductive Request.Objects : Request → Db → Exn → Prop where
  | registered {data : UserCreate} {db : Db} (taken : (db.userByEmail data.email).isSome = true) :
      Objects (.register data) db (.emailAlreadyExists data.email)
  | opened {owner : Uuid} {data : WalletCreate} {db : Db}
      (taken : (db.walletByUserAndCurrency owner (upper data.currency)).isSome = true) :
      Objects (.createWallet owner data) db (.walletAlreadyExists (upper data.currency))
  | deposit {w u : Uuid} {data : DepositRequest} {db : Db} {e : Exn}
      (unfit : db.Unfit w u "Wallet currency " (upper data.currency) e) :
      Objects (.deposit w u data) db e
  | withdraw {w u : Uuid} {data : WithdrawalRequest} {key : Option String} {db : Db} {e : Exn}
      (unfit : db.Unfit w u "Wallet currency " (upper data.currency) e) :
      Objects (.withdraw w u data key) db e
  | overdrawn {w u : Uuid} {data : WithdrawalRequest} {key : Option String} {db : Db}
      (short : db.Short w u (upper data.currency) data.amount) :
      Objects (.withdraw w u data key) db (.insufficientFunds w)
  | circular {w u : Uuid} {data : TransferRequest} {key : Option String} {db : Db}
      (same : w = data.recipientWalletId) :
        Objects (.transfer w u data key) db (.sameWalletTransfer w)
  | sender {w u : Uuid} {data : TransferRequest} {key : Option String} {db : Db} {e : Exn}
      (unfit : db.Unfit w u "Sender wallet currency " (upper data.currency) e) :
      Objects (.transfer w u data key) db e
  | recipient {w u : Uuid} {data : TransferRequest} {key : Option String} {db : Db}
      (row : db.wallets.get data.recipientWalletId = none) :
      Objects (.transfer w u data key) db (.recipientNotFound data.recipientWalletId)
  | apart {w u : Uuid} {data : TransferRequest} {key : Option String} {db : Db} {x y : Wallet}
      (row : db.wallets.get w = some x) (row' : db.wallets.get data.recipientWalletId = some y)
      (differs : y.currency ≠ x.currency) :
      Objects (.transfer w u data key) db
        (.currencyMismatch ("Recipient wallet currency " ++ y.currency ++ " != " ++ x.currency))
  | short {w u : Uuid} {data : TransferRequest} {key : Option String} {db : Db}
      (short : db.Short w u (upper data.currency) data.amount) :
      Objects (.transfer w u data key) db (.insufficientFunds w)
  | balance {w u : Uuid} {db : Db} (none : ∀ x, db.wallets.get w = some x → x.userId ≠ u) :
      Objects (.getBalance w u) db Routes.walletNotFound
  | history {w u : Uuid} {limit offset : Nat} {db : Db}
      (none : ∀ x, db.wallets.get w = some x → x.userId ≠ u) :
      Objects (.listTransactions w limit offset u) db Routes.walletNotFound
  | unreported {t : Request} {db : Db} (orphaned : t.Orphaned db) : Objects t db .attribute

/-- What a request raises when its COMMIT is answered with a conflict. -/
def Request.conflict : Request → Option Exn
  | .register data => some (.emailAlreadyExists data.email)
  | .createWallet _ data => some (.walletAlreadyExists (upper data.currency))
  | _ => none

/-- What an exception of a request is borne out by, among the statements it has executed. -/
inductive Excuse (t : Request) (os : List LedgerObs) : Exn → Prop where
  /-- The statement that was answered with it. -/
  | failed {o : LedgerObs} {f : DbError} (threw : engine.Threw os o (.db f))
      (area : o.stmt.area ≠ .cache) : Excuse t os (.db f)
  /-- A conflict at the commit. -/
  | conflict {o : LedgerObs} {e : Exn} (mem : o ∈ os) (commit : o.stmt = .commit)
      (fault : o.inp.fault = some .integrity) (raised : t.conflict = some e) : Excuse t os e
  /-- The state it met. -/
  | objected {o : LedgerObs} {e : Exn} (mem : o ∈ os) (objects : t.Objects o.db e) : Excuse t os e
  /-- The request itself. -/
  | circular {w u : Uuid} {data : TransferRequest} {key : Option String}
      (transfer : t = .transfer w u data key) (same : w = data.recipientWalletId) :
      Excuse t os (.sameWalletTransfer w)
  /-- An entry of the cache. -/
  | cached {w u : Uuid} {o : LedgerObs} {c : CachedBalance}
      (read : t = .getBalance w u) (mem : o ∈ os)
      (entry : o.aux.cache w = some c) (owner : c.userId ≠ u) : Excuse t os Routes.walletNotFound
  /-- Two states it met. -/
  | apart {w u : Uuid} {data : TransferRequest} {key : Option String}
      {o o' : LedgerObs} {x y : Wallet}
      (transfer : t = .transfer w u data key) (mem : o ∈ os) (mem' : o' ∈ os)
      (row : o.db.wallets.get w = some x) (row' : o'.db.wallets.get data.recipientWalletId = some y)
      (differs : y.currency ≠ x.currency) :
      Excuse t os (.currencyMismatch ("Recipient wallet currency " ++ y.currency
        ++ " != " ++ x.currency))
  /-- A key it found, and then a wallet it did not. -/
  | unreported {k : String} {o o' : LedgerObs} (other : t.isSelfTransfer = false)
      (key : t.key = some k)
      (looked : k ≠ "") (before : [o, o'].Sublist os)
        (bound : (o.db.transactionByKey k).isSome = true)
      (missing : o'.db.wallets.get t.path = none) : Excuse t os .attribute

theorem Excuse.mono {t : Request} {os os' : List LedgerObs} {e : Exn} (h : Excuse t os e)
    (hos : os <+: os') : Excuse t os' e := by
  cases h with
  | failed threw area => exact .failed (threw.mono hos) area
  | conflict mem commit fault raised => exact .conflict (hos.subset mem) commit fault raised
  | objected mem objects => exact .objected (hos.subset mem) objects
  | circular transfer same => exact .circular transfer same
  | cached read mem entry owner => exact .cached read (hos.subset mem) entry owner
  | apart transfer mem mem' row row' differs =>
      exact .apart transfer (hos.subset mem) (hos.subset mem') row row' differs
  | unreported other key looked before bound missing =>
      exact .unreported other key looked (before.trans hos.sublist) bound missing

end spec

/-! ## Statements -/

/-- The areas of the statements that talk to the database. -/
def Stmt.Sql (q : Stmt) : Prop := q.area ≠ .send ∧ q.area ≠ .consume ∧ q.area ≠ .cache

section fails

variable {β : Type} {inp : Inp} {o o' : Outside} {x : Exn}

theorem reads_fails {a : β} (h : (reads inp o a).ans = .error x) : ∃ f, x = .db f := by
  rcases reads_cases inp o a with ⟨f, -, he⟩ | ⟨-, he⟩
  · rw [he] at h
    exact ⟨f, (Except.error.inj h).symm⟩
  · rw [he] at h
    exact absurd h (by simp)

theorem readsChecked_fails {check : Option DbError} {a : β}
    (h : (readsChecked inp o check a).ans = .error x) : ∃ f, x = .db f := by
  rcases readsChecked_cases inp o check a with ⟨f, -, he⟩ | ⟨-, -, he⟩
  · rw [he] at h
    exact ⟨f, (Except.error.inj h).symm⟩
  · rw [he] at h
    exact absurd h (by simp)

theorem writes_fails {check clash : Option DbError} {locks : List Res} {w : Write} {a : β}
    (h : (writes inp o check locks clash w a o').ans = .error x) : ∃ f, x = .db f := by
  unfold writes at h
  split at h
  · exact ⟨_, (Except.error.inj h).symm⟩
  · exact ⟨_, (Except.error.inj h).symm⟩
  · exact ⟨_, (Except.error.inj h).symm⟩
  · exact absurd h (by simp)

theorem refreshes_fails {a : Option β} (h : (refreshes inp o a).ans = .error x) :
    ∃ f, x = .db f := by
  unfold refreshes at h
  split at h
  · exact ⟨_, (Except.error.inj h).symm⟩
  · exact absurd h (by simp)
  · exact ⟨_, (Except.error.inj h).symm⟩

theorem readsLocked_fails {a : Option β} {r : Res} (h : (readsLocked inp o a r).ans = .error x) :
    ∃ f, x = .db f := by
  unfold readsLocked at h
  split at h
  · exact ⟨_, (Except.error.inj h).symm⟩
  · exact absurd h (by simp)

/-- The database answers with database errors. -/
theorem run_fails {q : Stmt} {i : Sid} {db : Db}
    {e : Effect Write Res Outside Exn q.Ans} (hq : q.Sql)
    (he : run q inp i db o = some e) (hx : e.ans = .error x) : ∃ f, x = .db f := by
  cases q with
  | selectUserByEmail | selectWallet | selectWalletByUserAndCurrency | selectTransactionByKey
  | selectProcessed | selectStat | selectLedgerBalances | selectWallets =>
      cases he
      exact reads_fails hx
  | selectEntries id limit offset =>
      cases he
      exact readsChecked_fails hx
  | selectUnpublished limit =>
      rw [run] at he
      split at he
      · cases he
        exact reads_fails hx
      · exact absurd he (by simp)
  | insertUser | insertWallet | updateBalance | insertTransaction | updateStatus
      | insertEntry | insertEvent
  | updatePublished | insertProcessed | insertStat | updateStat =>
      cases he
      exact writes_fails hx
  | refreshUser | refreshWallet | refreshTransaction =>
      cases he
      exact refreshes_fails hx
  | selectWalletForUpdate id =>
      cases he
      exact readsLocked_fails hx
  | commit =>
      rw [run] at he
      split at he
      · cases he
        exact ⟨_, (Except.error.inj hx).symm⟩
      · cases he
        exact absurd hx (by simp)
  | rollback | close | now | salt | subscribe =>
      cases he
      exact absurd hx (by simp)
  | produce | flush => exact absurd rfl hq.1
  | poll | commitOffset | closeConsumer => exact absurd rfl hq.2.1
  | cacheGet | cacheSetex | cacheDelete => exact absurd rfl hq.2.2

end fails

section statements

variable [Runtime] {β : Type} {i : Sid} {t : Request} {ws : List Write} {pre : List LedgerObs}

omit [Runtime] in
/-- A statement of the database, if it fails, is why. -/
theorem leaves_query {q : Stmt} (hq : q.Sql) :
    Leaves engine i t (query q) ws pre (fun r os _ => ∀ x, r = .error x →
      (∃ f, x = .db f) ∧ ∃ o, engine.Threw os o x ∧ o.stmt.area ≠ .cache) :=
  .perform (fun _ _ _ _ _ he hthrew x hx => ⟨run_fails hq he hx, _, hthrew x hx, hq.2.2⟩)

theorem accounts_query {q : Stmt} (hq : q.Sql) :
    Accounts engine i t (Excuse t) (query q) ws pre (fun _ _ _ => True) := by
  refine (leaves_query hq).mono (fun r os ws' h => ?_)
  cases r with
  | ok a => trivial
  | error x =>
      obtain ⟨⟨f, rfl⟩, o, hthrew, harea⟩ := h x rfl
      exact .failed hthrew harea

omit [Runtime] in
/-- A plain read answers from the state it meets. -/
theorem leaves_read {q : Stmt} {a : Db → q.Ans} (hs : q.Sql)
    (hq : ∀ inp i db o, run q inp i db o = some (reads inp o (a db))) :
    Leaves engine i t (query q) [] pre (fun r os ws' =>
      (∀ x, r = .ok x → ws' = [] ∧ ∃ o, os = pre ++ [o] ∧ x = a o.db)
        ∧ ∀ x, r = .error x → (∃ f, x = .db f) ∧ ∃ o, engine.Threw os o x
          ∧ o.stmt.area ≠ .cache) := by
  refine .perform (fun inp db aux n e he hthrew => ⟨fun x hx => ?_, fun x hx => ?_⟩)
  · have heff : e = reads inp aux (a db) := (Option.some.inj ((hq inp i db aux).symm.trans he)).symm
    subst heff
    rcases reads_cases inp aux (a db) with ⟨f, -, hf⟩ | ⟨-, hf⟩
    · rw [hf] at hx
      exact absurd hx (by simp [failed])
    · rw [hf] at hx ⊢
      exact ⟨rfl, _, rfl, (Except.ok.inj hx).symm⟩
  · exact ⟨run_fails hs he hx, _, hthrew x hx, hs.2.2⟩

theorem accounts_read {q : Stmt} {a : Db → q.Ans} (hs : q.Sql)
    (hq : ∀ inp i db o, run q inp i db o = some (reads inp o (a db))) :
    Accounts engine i t (Excuse t) (query q) [] pre
      (fun x os ws' => ws' = [] ∧ ∃ o, os = pre ++ [o] ∧ x = a o.db) := by
  refine (leaves_read hs hq).mono (fun r os ws' h => ?_)
  cases r with
  | ok x => exact h.1 x rfl
  | error x =>
      obtain ⟨⟨f, rfl⟩, o, hthrew, harea⟩ := h.2 x rfl
      exact .failed hthrew harea

/-- So does a read that locks. -/
theorem accounts_lock {id : Uuid} :
    Accounts engine i t (Excuse t) (WalletRepository.getWithLock id) [] pre
      (fun x os ws' => ws' = [] ∧ ∃ o, os = pre ++ [o] ∧ x = o.db.wallets.get id) := by
  refine .perform (fun inp db aux n e he hthrew => ?_)
  have heff : readsLocked inp aux (db.wallets.get id) (.wallet id) = e := Option.some.inj he
  subst heff
  revert hthrew
  unfold readsLocked
  cases inp.fault with
  | some f => exact fun hthrew => .failed (hthrew _ rfl) (fun h => absurd h (by simp [Stmt.area]))
  | none => exact fun _ => ⟨by simp [Effect.buffer], _, rfl, rfl⟩

/-- Rows locked one by one are rows of the states met. -/
theorem accounts_lockEach {ids : List Uuid} :
    Accounts engine i t (Excuse t) (WalletRepository.lockEach ids) [] pre
      (fun rows os ws' => ws' = [] ∧ pre <+: os
        ∧ ∀ id ∈ ids, ∃ o ∈ os, (rows.lookup id).join = o.db.wallets.get id) := by
  induction ids generalizing pre with
  | nil => exact .ret ⟨rfl, List.prefix_rfl, by simp⟩
  | cons id ids ih =>
      refine accounts_lock.bind (fun x os ws' hgot => ?_)
      obtain ⟨hws, o, rfl, hx⟩ := hgot
      subst hws
      refine ih.bind (fun rows os' ws' hgot => ?_)
      obtain ⟨hws, hos, hrows⟩ := hgot
      refine .ret ⟨hws, (List.prefix_append _ _).trans hos, fun id' hid' => ?_⟩
      by_cases he : id' = id
      · subst he
        exact ⟨o, hos.subset (by simp), by simp [hx]⟩
      · obtain ⟨o', ho', hrow⟩ := hrows id' ((List.mem_cons.mp hid').resolve_left he)
        refine ⟨o', ho', ?_⟩
        rw [List.lookup_cons, beq_false_of_ne he]
        exact hrow

/-- A call whose exception is looked at raises nothing. -/
theorem accounts_attempt {α : Type} {p : Tx α} {f : Except Exn α → Tx β}
    {Q : β → List LedgerObs → List Write → Prop}
    (hf : ∀ r os ws', pre <+: os → Accounts engine i t (Excuse t) (f r) ws' os Q) :
    Accounts engine i t (Excuse t) (p.attempt >>= f) ws pre Q := by
  rw [attempt_bind]
  have hp : Leaves engine i t p ws pre (fun _ os _ => pre <+: os) :=
    fun _ os _ _ _ => List.prefix_append _ _
  exact .handle hp hf

omit [Runtime] in
/-- The integrity error of a commit comes from the server. -/
theorem leaves_commit :
    Leaves engine i t (query .commit) ws pre (fun r os _ => pre <+: os
      ∧ ∀ x, r = .error x → ∃ f, x = .db f
        ∧ ∃ o, engine.Threw os o x ∧ o.stmt = .commit ∧ o.inp.fault = some f) := by
  refine .perform (fun inp db aux n e he hthrew => ⟨List.prefix_append _ _, fun x hx => ?_⟩)
  cases hf : inp.fault with
  | some f =>
      have heff : run .commit inp i (db.applyAll ws) aux = some (failed aux f []) := by
        simp only [run, hf]
      cases Option.some.inj (heff.symm.trans he)
      cases hx
      exact ⟨f, rfl, _, hthrew _ rfl, rfl, hf⟩
  | none =>
      have heff : run .commit inp i (db.applyAll ws) aux
          = some { ctl := .commit, ans := .ok (), aux := aux } := by
        simp only [run, hf]
      cases Option.some.inj (heff.symm.trans he)
      exact absurd hx (by simp)

omit [Runtime] in
/-- A rollback drops what was buffered, so that what is read next is committed. -/
theorem leaves_rollback : Leaves engine i t (query .rollback) ws pre
    (fun r os ws' => r = .ok () ∧ pre <+: os ∧ ws' = []) := by
  refine .perform (fun inp db aux n e he _ => ?_)
  cases he
  exact ⟨rfl, List.prefix_append _ _, rfl⟩

/-- What a money operation returns can be answered with, or something excuses that it cannot. -/
def Reportable (t : Request) (r : Transaction × Option Wallet) (os : List LedgerObs) : Prop :=
  r.2 = none → Excuse t os .attribute

theorem Reportable.mono {r : Transaction × Option Wallet} {os os' : List LedgerObs}
    (h : Reportable t r os)
    (hos : os <+: os') : Reportable t r os' := fun hr => (h hr).mono hos

end statements

/-! ## Services -/

section services

variable [Runtime] {β : Type} {i : Sid} {t : Request} {ws : List Write} {pre : List LedgerObs}

theorem accounts_flush {dirty : List Wallet} :
    Accounts engine i t (Excuse t) (TransactionRepository.flushWallets dirty) ws pre
      (fun _ _ _ => True) := by
  induction dirty generalizing ws pre with
  | nil => exact .ret trivial
  | cons w dirty ih =>
      exact .bind (accounts_query (by simp [Stmt.Sql, Stmt.area])) (fun _ _ _ _ => ih)

theorem accounts_create {type : TransactionType} {currency : String} {key : Option String} :
    Accounts engine i t (Excuse t) (TransactionRepository.create type currency key) ws pre
      (fun _ _ _ => True) := by
  refine .bind (accounts_query (by simp [Stmt.Sql, Stmt.area])) (fun _ _ _ _ => ?_)
  exact accounts_query (by simp [Stmt.Sql, Stmt.area])

theorem accounts_markCompleted {dirty : List Wallet} {txn : Transaction} :
    Accounts engine i t (Excuse t) (TransactionRepository.markCompleted dirty txn) ws pre
      (fun _ _ _ => True) := by
  refine .bind (accounts_query (by simp [Stmt.Sql, Stmt.area])) (fun _ _ _ _ => ?_)
  exact .bind accounts_flush (fun _ _ _ _ => .ret trivial)

theorem accounts_recordEvent {txn : Transaction} {amount : Int} {w : Uuid} {c : Option Uuid} :
    Accounts engine i t (Excuse t) (LedgerService.recordEvent txn amount w c) ws pre
      (fun _ _ _ => True) := by
  refine .bind (accounts_query (by simp [Stmt.Sql, Stmt.area])) (fun _ _ _ _ => ?_)
  exact .bind (accounts_query (by simp [Stmt.Sql, Stmt.area])) (fun _ _ _ _ => .ret trivial)

/-- The tail of a money operation refuses nothing. -/
theorem accounts_book {mv : Movement} {k : Transaction → Tx β}
    {Q : β → List LedgerObs → List Write → Prop}
    (hk : ∀ txn os ws', Accounts engine i t (Excuse t) (k txn) ws' os Q) :
    Accounts engine i t (Excuse t) (book mv k) ws pre Q := by
  refine .bind accounts_create (fun txn _ _ _ => ?_)
  refine .bind (accounts_query (by simp [Stmt.Sql, Stmt.area])) (fun _ _ _ _ => ?_)
  refine .bind (accounts_query (by simp [Stmt.Sql, Stmt.area])) (fun _ _ _ _ => ?_)
  refine .bind accounts_markCompleted (fun txn _ _ _ => ?_)
  exact .bind accounts_recordEvent (fun _ _ _ _ => hk _ _ _)

theorem accounts_replay (hself : t.isSelfTransfer = false) :
    Accounts engine i t (Excuse t) (LedgerService.replay t.key t.path) [] pre
      (fun r os ws' => pre <+: os ∧ ws' = [] ∧ ∀ x, r = some x → Reportable t x os) := by
  unfold LedgerService.replay
  split
  swap
  · exact .ret ⟨List.prefix_rfl, rfl, by simp⟩
  rename_i htruthy
  obtain ⟨k, hkey, hlooked⟩ : ∃ k, t.key = some k ∧ k ≠ "" := by
    cases hkey : t.key with
    | none =>
        rw [hkey] at htruthy
        exact absurd htruthy (by simp [LedgerService.truthy])
    | some k =>
        rw [hkey] at htruthy
        exact ⟨k, rfl, of_decide_eq_true htruthy⟩
  refine .bind (accounts_read (a := fun db => db.transactionByKey (t.key.getD ""))
    (by simp [Stmt.Sql, Stmt.area])
    (fun _ _ _ _ => rfl)) (fun existing os ws' hgot => ?_)
  obtain ⟨hws, o, rfl, hbound⟩ := hgot
  subst hws
  cases existing with
  | none => exact .ret ⟨List.prefix_append _ _, rfl, by simp⟩
  | some txn =>
      refine .bind (accounts_read (a := fun db => db.wallets.get t.path)
        (by simp [Stmt.Sql, Stmt.area])
        (fun _ _ _ _ => rfl)) (fun wallet os' ws' hgot => ?_)
      obtain ⟨hws, o', rfl, hrow⟩ := hgot
      refine .ret ⟨by simp, hws, fun x hx hnone => ?_⟩
      cases hx
      rw [hkey] at hbound
      refine .unreported hself hkey hlooked (?_ : [o, o'].Sublist _) ?_ (hrow.symm.trans hnone)
      · rw [List.append_assoc]
        exact List.sublist_append_right _ _
      · exact hbound ▸ rfl

/-- A keyed operation that cannot be committed, nor answered by a replay, raises what its commit was
answered with. -/
theorem accounts_commitKeyed {txn : Transaction} (hself : t.isSelfTransfer = false) :
    Accounts engine i t (Excuse t) (LedgerService.commitKeyed txn t.key t.path) ws pre
      (fun r os _ => Reportable t r os) := by
  unfold LedgerService.commitKeyed
  rw [attempt_bind]
  refine .handle leaves_commit (fun r os ws' hgot => ?_)
  obtain ⟨-, hfail⟩ := hgot
  cases r with
  | ok u =>
      refine .bind (accounts_query (by simp [Stmt.Sql, Stmt.area])) (fun _ _ _ _ => ?_)
      refine .bind (accounts_query (by simp [Stmt.Sql, Stmt.area])) (fun _ _ _ _ => .ret ?_)
      exact fun hnone => absurd hnone (by simp)
  | error x =>
      obtain ⟨f, rfl, o, hthrew, hcommit, -⟩ := hfail x rfl
      have harea : o.stmt.area ≠ .cache := by
        rw [hcommit]
        simp [Stmt.area]
      cases f with
      | integrity =>
          refine .handle leaves_rollback (fun r os₁ ws₁ hgot => ?_)
          obtain ⟨hr, hos, hws⟩ := hgot
          subst hr hws
          refine .bind (accounts_replay hself) (fun r os₂ ws₂ hgot => ?_)
          obtain ⟨hos', -, hkept⟩ := hgot
          cases r with
          | some r => exact .ret (hkept r rfl)
          | none => exact .raise (.failed (hthrew.mono (hos.trans hos')) harea)
      | _ => exact .raise (.failed hthrew harea)

/-! ### Accounts and wallets -/

/-- A commit whose conflict is answered with an exception of the service. -/
theorem accounts_conflict {e : Exn} {p : Tx β} (he : t.conflict = some e)
    (hp : ∀ os ws', Accounts engine i t (Excuse t) p ws' os (fun _ _ _ => True)) :
    Accounts engine i t (Excuse t) (do
      match ← (query .commit).attempt with
      | .ok () => p
      | .error (.db .integrity) => do
          query .rollback
          raise e
      | .error e => raise e) ws pre (fun _ _ _ => True) := by
  rw [attempt_bind]
  refine .handle leaves_commit (fun r os ws' hgot => ?_)
  obtain ⟨-, hfail⟩ := hgot
  cases r with
  | ok u => exact hp os ws'
  | error x =>
      obtain ⟨f, rfl, o, hthrew, hcommit, hf⟩ := hfail x rfl
      cases f with
      | integrity =>
          refine .handle leaves_rollback (fun r os₁ ws₁ hgot => ?_)
          obtain ⟨hr, hos, -⟩ := hgot
          subst hr
          exact .raise (.conflict (hos.subset hthrew.mem) hcommit hf he)
      | _ => exact .raise (.failed hthrew (by rw [hcommit]; simp [Stmt.area]))

theorem accounts_register {data : UserCreate} (ht : t = .register data) :
    Accounts engine i t (Excuse t) (UserService.register data) [] pre (fun _ _ _ => True) := by
  refine .bind (accounts_read (a := fun db => db.userByEmail data.email)
    (by simp [Stmt.Sql, Stmt.area])
    (fun _ _ _ _ => rfl)) (fun existing os ws' hgot => ?_)
  obtain ⟨-, o, rfl, hx⟩ := hgot
  refine .raiseIf (fun hsome => ?_) (fun _ => ?_)
  · subst ht hx
    exact .objected (o := o) (by simp) (.registered hsome)
  refine .bind (accounts_query (by simp [Stmt.Sql, Stmt.area])) (fun salt _ _ _ => ?_)
  refine .bind (.bind (accounts_query (by simp [Stmt.Sql, Stmt.area])) (fun _ _ _ _ =>
    accounts_query (by simp [Stmt.Sql, Stmt.area]))) (fun user os ws' _ => ?_)
  exact accounts_conflict (by rw [ht]; rfl)
    (fun _ _ => accounts_query (by simp [Stmt.Sql, Stmt.area]))

theorem accounts_createWallet {owner : Uuid} {data : WalletCreate}
    (ht : t = .createWallet owner data) :
    Accounts engine i t (Excuse t) (WalletService.createWallet owner data) [] pre
      (fun _ _ _ => True) := by
  refine .bind (accounts_read (a := fun db => db.walletByUserAndCurrency owner
    (upper data.currency))
    (by simp [Stmt.Sql, Stmt.area]) (fun _ _ _ _ => rfl)) (fun existing os ws' hgot => ?_)
  obtain ⟨-, o, rfl, hx⟩ := hgot
  refine .raiseIf (fun hsome => ?_) (fun _ => ?_)
  · subst ht hx
    exact .objected (o := o) (by simp) (.opened hsome)
  refine .bind (.bind (accounts_query (by simp [Stmt.Sql, Stmt.area])) (fun _ _ _ _ =>
    accounts_query (by simp [Stmt.Sql, Stmt.area]))) (fun wallet os ws' _ => ?_)
  exact accounts_conflict (by rw [ht]; rfl)
    (fun _ _ => accounts_query (by simp [Stmt.Sql, Stmt.area]))

/-! ### Money -/

theorem accounts_deposit {w u : Uuid} {data : DepositRequest} (ht : t = .deposit w u data) :
    Accounts engine i t (Excuse t) (LedgerService.deposit w u data) [] pre
      (fun r os _ => Reportable t r os) := by
  subst ht
  rw [deposit_eq]
  refine .bind accounts_lock (fun x os ws' hgot => ?_)
  obtain ⟨-, o, rfl, hx⟩ := hgot
  have ho : o ∈ pre ++ [o] := by simp
  cases x with
  | none => exact .raise (.objected ho (.deposit (.missing hx.symm)))
  | some x =>
      refine .raiseIf (fun hu => .objected ho (.deposit (.foreign hx.symm hu))) (fun hu => ?_)
      refine .raiseIf (fun hc => .objected ho
        (.deposit (.mismatched hx.symm (not_not.mp hu) hc))) (fun hc => ?_)
      refine accounts_book (fun txn os ws' => ?_)
      refine .bind (accounts_query (by simp [Stmt.Sql, Stmt.area])) (fun _ _ _ _ => ?_)
      refine .bind (accounts_query (by simp [Stmt.Sql, Stmt.area])) (fun _ _ _ _ => ?_)
      refine .bind (accounts_query (by simp [Stmt.Sql, Stmt.area])) (fun _ _ _ _ => .ret ?_)
      exact fun hnone => absurd hnone (by simp)

theorem accounts_withdraw {w u : Uuid} {data : WithdrawalRequest} {key : Option String}
    (ht : t = .withdraw w u data key) :
    Accounts engine i t (Excuse t) (LedgerService.withdraw w u data key) [] pre
      (fun r os _ => Reportable t r os) := by
  subst ht
  rw [withdraw_eq]
  refine .bind (accounts_replay rfl) (fun r os ws' hgot => ?_)
  obtain ⟨-, hws, hkept⟩ := hgot
  subst hws
  cases r with
  | some r => exact .ret (hkept r rfl)
  | none =>
      refine .bind accounts_lock (fun x os' ws' hgot => ?_)
      obtain ⟨-, o, rfl, hx⟩ := hgot
      have ho : o ∈ os ++ [o] := by simp
      cases x with
      | none => exact .raise (.objected ho (.withdraw (.missing hx.symm)))
      | some x =>
          refine .raiseIf (fun hu => .objected ho (.withdraw (.foreign hx.symm hu))) (fun hu => ?_)
          refine .raiseIf (fun hc => .objected ho
            (.withdraw (.mismatched hx.symm (not_not.mp hu) hc)))
            (fun hc => ?_)
          refine .raiseIf (fun hb => .objected ho
            (.overdrawn ⟨x, hx.symm, not_not.mp hu, not_not.mp hc, hb⟩))
            (fun hb => ?_)
          exact accounts_book (fun txn os ws' => accounts_commitKeyed rfl)

theorem accounts_transfer {w u : Uuid} {data : TransferRequest} {key : Option String}
    (ht : t = .transfer w u data key) :
    Accounts engine i t (Excuse t) (LedgerService.transfer w u data key) [] pre
      (fun r os _ => Reportable t r os) := by
  subst ht
  rw [transfer_eq]
  refine .raiseIf (fun hself => .circular rfl hself) (fun hself => ?_)
  have hother : (Request.transfer w u data key).isSelfTransfer = false := decide_eq_false hself
  refine .bind (accounts_replay hother) (fun r os ws' hgot => ?_)
  obtain ⟨-, hws, hkept⟩ := hgot
  subst hws
  cases r with
  | some r => exact .ret (hkept r rfl)
  | none =>
      refine .bind accounts_lockEach (fun rows os ws' hgot => ?_)
      obtain ⟨-, -, hrows⟩ := hgot
      have hmem : ∀ id ∈ [w, data.recipientWalletId],
          id ∈ WalletRepository.sortedSet [w, data.recipientWalletId] := by
        intro id hid
        unfold WalletRepository.sortedSet
        rw [List.mem_insertionSort, List.mem_dedup]
        exact hid
      obtain ⟨o, ho, hx⟩ := hrows w (hmem w (by simp))
      obtain ⟨o', ho', hy⟩ := hrows data.recipientWalletId (hmem _ (by simp))
      -- the two rows have been met at two times
      generalize (rows.lookup w).join = x at hx ⊢
      generalize (rows.lookup data.recipientWalletId).join = y at hy ⊢
      cases x with
      | none => exact .raise (.objected ho (.sender (.missing hx.symm)))
      | some x =>
          refine .raiseIf (fun hu => .objected ho (.sender (.foreign hx.symm hu))) (fun hu => ?_)
          cases y with
          | none => exact .raise (.objected ho' (.recipient hy.symm))
          | some y =>
              refine .raiseIf (fun hc => .objected ho
                (.sender (.mismatched hx.symm (not_not.mp hu) hc)))
                (fun hc => ?_)
              refine .raiseIf (fun hc' => .apart rfl ho ho' hx.symm hy.symm hc') (fun hc' => ?_)
              refine .raiseIf (fun hb => .objected ho
                (.short ⟨x, hx.symm, not_not.mp hu, not_not.mp hc, hb⟩))
                (fun hb => ?_)
              exact accounts_book (fun txn os ws' => accounts_commitKeyed hother)

/-! ### Events and reports -/

theorem accounts_handleEvent {payload : Payload} :
    Accounts engine i t (Excuse t) (AnalyticsService.handleEvent payload) ws pre
      (fun _ _ _ => True) := by
  refine .bind (Q := fun _ _ _ => True) ?_ (fun seen _ _ _ => ?_)
  · exact .bind (accounts_query (by simp [Stmt.Sql, Stmt.area])) (fun _ _ _ _ => .ret trivial)
  split
  · exact .ret trivial
  refine .bind (accounts_query (by simp [Stmt.Sql, Stmt.area])) (fun _ _ _ _ => ?_)
  have hincrement : ∀ {ws pre}, Accounts engine i t (Excuse t)
      (TransactionStatRepository.increment payload.currency payload.type payload.amount) ws pre
      (fun _ _ _ => True) := by
    intro ws pre
    refine .bind (accounts_query (by simp [Stmt.Sql, Stmt.area])) (fun stat _ _ _ => ?_)
    cases stat with
    | none => exact accounts_query (by simp [Stmt.Sql, Stmt.area])
    | some stat => exact accounts_query (by simp [Stmt.Sql, Stmt.area])
  refine .bind hincrement (fun _ _ _ _ => ?_)
  rw [attempt_bind]
  refine .handle leaves_commit (fun r os ws' hgot => ?_)
  obtain ⟨-, hfail⟩ := hgot
  cases r with
  | ok u => exact .ret trivial
  | error x =>
      obtain ⟨f, rfl, o, hthrew, hcommit, -⟩ := hfail x rfl
      cases f with
      | integrity =>
          exact .bind (accounts_query (by simp [Stmt.Sql, Stmt.area])) (fun _ _ _ _ => .ret trivial)
      | _ => exact .raise (.failed hthrew (by rw [hcommit]; simp [Stmt.area]))

theorem accounts_check :
    Accounts engine i t (Excuse t) ReconciliationService.check ws pre (fun _ _ _ => True) := by
  refine .bind (accounts_query (by simp [Stmt.Sql, Stmt.area])) (fun _ _ _ _ => ?_)
  exact .bind (accounts_query (by simp [Stmt.Sql, Stmt.area])) (fun _ _ _ _ => .ret trivial)

/-- A publisher iteration swallows whatever its work raises. -/
theorem accounts_iteration {producer : Nat} {topic : String} {n : Nat} :
    Accounts engine i t (Excuse t) (OutboxPublisher.iteration producer topic n) ws pre
      (fun _ _ _ => True) := by
  refine accounts_attempt (fun r os ws' _ => ?_)
  cases r with
  | ok published =>
      exact .bind (accounts_query (by simp [Stmt.Sql, Stmt.area])) (fun _ _ _ _ => .ret trivial)
  | error e =>
      refine .bind (accounts_query (by simp [Stmt.Sql, Stmt.area])) (fun _ _ _ _ => ?_)
      exact .bind (accounts_query (by simp [Stmt.Sql, Stmt.area])) (fun _ _ _ _ => .ret trivial)

/-! ### Routes -/

/-- How a program ends that has returned: its answer can be built, or something excuses that it
cannot. -/
def Built (t : Request) (r : Reply) (os : List LedgerObs) : Prop :=
  ∀ e, Routes.built (.ok r) = .error e → Excuse t os e

theorem Built.mono {r : Reply} {os os' : List LedgerObs} (h : Built t r os) (hos : os <+: os') :
    Built t r os' := fun e he => (h e he).mono hos

/-- Only the answer to a movement of money is built from something that may be missing. -/
theorem built_other {r : Reply} {os : List LedgerObs} (h : ∀ txn, r ≠ .moved txn none) :
    Built t r os := by
  intro e he
  unfold Routes.built at he
  split at he
  · rename_i txn heq
    exact absurd (Except.ok.inj heq) (h txn)
  · exact absurd he (by simp)

theorem built_moved {r : Transaction × Option Wallet} {os : List LedgerObs}
    (h : Reportable t r os) :
    Built t (Reply.ofMoved r) os := by
  intro e he
  cases hr : r.2 with
  | none =>
      rw [Reply.ofMoved, hr] at he
      cases he
      exact h hr
  | some x =>
      rw [Reply.ofMoved, hr] at he
      exact absurd he (by simp [Routes.built])

theorem accounts_money {p : Tx (Transaction × Option Wallet)} {ids : List Uuid}
    (hp : Accounts engine i t (Excuse t) p ws pre (fun r os _ => Reportable t r os)) :
    Accounts engine i t (Excuse t) (Reply.ofMoved <$> (do
      let r ← p
      BalanceCache.invalidate ids
      pure r)) ws pre (fun r os _ => Built t r os) := by
  refine .map (.bind hp (fun r os ws' hkept => ?_))
  refine .bind (Q := fun _ os' _ => os <+: os') ?_
    (fun _ os' _ hos => .ret (built_moved (hkept.mono hos)))
  unfold BalanceCache.invalidate
  split
  · exact .ret List.prefix_rfl
  · exact accounts_attempt (fun _ _ _ hos => .ret hos)

theorem accounts_listTransactions {w u : Uuid} {limit offset : Nat}
    (ht : t = .listTransactions w limit offset u) :
    Accounts engine i t (Excuse t) (Routes.listTransactions w limit offset u) [] pre
      (fun _ _ _ => True) := by
  subst ht
  refine .bind (accounts_read (a := fun db => db.wallets.get w) (by simp [Stmt.Sql, Stmt.area])
    (fun _ _ _ _ => rfl)) (fun x os ws' hgot => ?_)
  obtain ⟨-, o, rfl, hx⟩ := hgot
  refine .raiseIf (fun hnone => ?_) (fun _ => ?_)
  · subst hx
    exact .objected (o := o) (by simp) (.history hnone)
  · exact .bind (accounts_query (by simp [Stmt.Sql, Stmt.area])) (fun _ _ _ _ => .ret trivial)

omit [Runtime] in
/-- What the cache answers is what it holds. -/
theorem leaves_cacheGet {id : Uuid} :
    Leaves engine i t (query (.cacheGet id)) [] pre (fun r os ws' => ws' = []
      ∧ ∀ c, r = .ok (some c) → ∃ o ∈ os, o.aux.cache id = some c) := by
  refine .perform (fun inp db aux n e he _ => ?_)
  cases he
  unfold runCache
  cases inp.cacheFault with
  | some applied => exact ⟨by simp [Effect.buffer], fun c hc => absurd hc (by simp)⟩
  | none =>
      refine ⟨by simp [Effect.buffer], fun c hc => ?_⟩
      exact ⟨_, List.mem_append_right _ (List.mem_singleton_self _), Except.ok.inj hc⟩

omit [Runtime] in
/-- The service refuses a wallet that is not there or not the requester's, in two ways. -/
theorem accounts_getBalance_service {w u : Uuid} :
    Accounts engine i t (fun os e => (∃ f, e = .db f ∧ ∃ o, engine.Threw os o e
      ∧ o.stmt.area ≠ .cache)
      ∨ ((e = .walletNotFound w ∨ e = .walletAccessDenied w)
        ∧ ∃ o ∈ os, ∀ x, o.db.wallets.get w = some x → x.userId ≠ u))
      (WalletService.getBalance w u) [] pre (fun _ _ _ => True) := by
  refine .handle (leaves_read (a := fun db => db.wallets.get w) (by simp [Stmt.Sql, Stmt.area])
    (fun _ _ _ _ => rfl)) (fun r os ws' hgot => ?_)
  obtain ⟨hrow, hfail⟩ := hgot
  cases r with
  | error e =>
      obtain ⟨⟨f, rfl⟩, hbad⟩ := hfail e rfl
      exact .raise (.inl ⟨f, rfl, hbad⟩)
  | ok x =>
      obtain ⟨-, o, rfl, hx⟩ := hrow x rfl
      have ho : o ∈ pre ++ [o] := by simp
      cases x with
      | none => exact .raise (.inr ⟨.inl rfl, o, ho, by simp [← hx]⟩)
      | some x =>
          refine .raiseIf (fun hu => .inr ⟨.inr rfl, o, ho, fun y hy => ?_⟩) (fun _ => .ret trivial)
          cases hx.trans hy
          exact hu

theorem accounts_getBalance {w u : Uuid} (ht : t = .getBalance w u) :
    Accounts engine i t (Excuse t) (Routes.getBalance w u) [] pre (fun _ _ _ => True) := by
  subst ht
  have hcached : Accounts engine i (.getBalance w u) (Excuse (.getBalance w u))
    (BalanceCache.get w) [] pre
      (fun r os ws' => ws' = [] ∧ ∀ c, r = some c → ∃ o ∈ os, o.aux.cache w = some c) := by
    unfold BalanceCache.get
    rw [attempt_bind]
    refine .handle leaves_cacheGet (fun r os ws' hgot => ?_)
    obtain ⟨hws, hc⟩ := hgot
    cases r with
    | ok c => exact .ret ⟨hws, fun c' hc' => hc c' (congrArg Except.ok hc')⟩
    | error e => exact .ret ⟨hws, fun c' hc' => absurd hc' (by simp)⟩
  refine .bind hcached (fun r os ws' hgot => ?_)
  obtain ⟨hws, hentry⟩ := hgot
  subst hws
  cases r with
  | some c =>
      obtain ⟨o, ho, hc⟩ := hentry c rfl
      exact .raiseIf (fun hu => .cached rfl ho hc hu) (fun _ => .ret trivial)
  | none =>
      have hload : Accounts engine i (.getBalance w u) (Excuse (.getBalance w u))
          (Routes.orNotFound (WalletService.getBalance w u)) [] os (fun _ _ _ => True) := by
        refine .handle accounts_getBalance_service (fun r os ws' hfail => ?_)
        cases r with
        | ok x => exact .ret trivial
        | error e =>
            rcases hfail with ⟨f, rfl, o, hthrew, harea⟩ | ⟨rfl | rfl, o, ho, hno⟩
            · exact .raise (.failed hthrew harea)
            · exact .raise (.objected ho (.balance hno))
            · exact .raise (.objected ho (.balance hno))
      refine .bind hload (fun x _ _ _ => ?_)
      refine .bind (Q := fun _ _ _ => True) ?_ (fun _ _ _ _ => .ret trivial)
      exact accounts_attempt (fun _ _ _ _ => .ret trivial)

/-- The session around a request adds nothing to blame. -/
theorem accounts_session {p : Tx Reply}
    (hp : Accounts engine i t (Excuse t) p [] [] (fun r os _ => Built t r os)) :
    Accounts engine i t (Excuse t) (withSession p) [] [] (fun r os _ => Built t r os) := by
  refine Leaves.handle hp (fun r os ws' h => ?_)
  have hclose : Leaves engine i t (query .close) ws' os (fun r os' _ => r = .ok ()
      ∧ os <+: os') := by
    refine .perform (fun inp db aux n e he _ => ?_)
    cases he
    exact ⟨rfl, List.prefix_append _ _⟩
  refine Leaves.handle hclose (fun r' os' ws'' hgot => ?_)
  obtain ⟨hr, hos⟩ := hgot
  subst hr
  cases r with
  | ok a => exact Accounts.ret (Built.mono h hos)
  | error e => exact Accounts.raise (Excuse.mono h hos)

/-- An answer that is no receipt can always be built. -/
theorem accounts_other {f : β → Reply} {p : Tx β}
    (hp : Accounts engine i t (Excuse t) p ws pre (fun _ _ _ => True))
    (hf : ∀ x txn, f x ≠ .moved txn none) :
    Accounts engine i t (Excuse t) (f <$> p) ws pre (fun r os _ => Built t r os) :=
  .map (hp.mono (fun x _ _ _ => built_other (hf x)))

/-- **Every exception of a request has its excuse.** -/
theorem Request.program_accounts (t : Request) (ht : t.next = none) :
    Accounts engine i t (Excuse t) t.program [] [] (fun r os _ => Built t r os) := by
  cases t with
  | register data => exact accounts_session (accounts_other (accounts_register rfl) (by simp))
  | createWallet owner data =>
      exact accounts_session (accounts_other (accounts_createWallet rfl) (by simp))
  | deposit w u data => exact accounts_session (accounts_money (accounts_deposit rfl))
  | transfer w u data key => exact accounts_session (accounts_money (accounts_transfer rfl))
  | withdraw w u data key => exact accounts_session (accounts_money (accounts_withdraw rfl))
  | publish producer topic n => exact accounts_other accounts_iteration (by simp)
  | handleEvent payload => exact accounts_session (accounts_other accounts_handleEvent (by simp))
  | analyticsConsumer => exact absurd ht (by simp [Request.next])
  | getBalance w u => exact accounts_session (accounts_other (accounts_getBalance rfl) (by simp))
  | listTransactions w limit offset u =>
      exact accounts_session (accounts_other (accounts_listTransactions rfl) (by simp))
  | reconcile => exact accounts_session (accounts_other accounts_check (by simp))

end services

/-! ## Every refusal -/

section refusals

variable [Runtime] {db₀ : Db} {w : LedgerWorld}

/-- A wallet read by some statement is there at every later one, with the same owner and
currency. -/
theorem row_kept (h : ReachableFrom db₀ w) {m n : Nat} (hmn : m ≤ n) {id : Uuid} {x : Wallet}
    (hx : (w.store.past engine db₀ m).wallets.get id = some x) :
    ∃ y, (w.store.past engine db₀ n).wallets.get id = some y ∧ SameAccount x y :=
  Evolves.account ⟨_, (reachable_settled h).chain hmn⟩ hx

/-- **No request is refused for a reason that is not so.** Whatever runs beside it, an exception of
a request, or of building its answer, is the database error a statement of it was answered with, its
answer to a conflict at its commit, or called for by a committed state it has met. -/
theorem reachable_refused (db₀ : Db) (w : LedgerWorld) (h : ReachableFrom db₀ w)
    (i : Sid) (t : Request)
    (r : Except Exn Reply) (hs : ended w i = some (t, r)) (e : Exn) (he : Routes.built r = .error e)
    (ht : t.next = none) :
    (∃ f, e = .db f ∧ ∃ o, engine.Threw (w.store.script i) o e ∧ o.stmt.area ≠ .cache)
    ∨ (t.conflict = some e
      ∧ ∃ o ∈ w.store.script i, o.stmt = .commit ∧ o.inp.fault = some .integrity)
    ∨ ∃ o ∈ w.store.script i, t.Objects (w.store.past engine db₀ o.clock) e := by
  obtain ⟨ws, htrail⟩ := ended_trail h hs ht
  have hexcuse : Excuse t (w.store.script i) e := by
    have hends := (t.program_accounts ht).ended htrail
    cases r with
    | ok reply => exact hends e he
    | error x =>
        cases he
        exact hends
  have hmet : ∀ o ∈ w.store.script i, o.db = w.store.past engine db₀ o.clock :=
    fun o ho => (h.past.2 o (mem_script.mp ho).1).2
  cases hexcuse with
  | failed threw area => exact .inl ⟨_, rfl, _, threw, area⟩
  | conflict mem commit fault raised => exact .inr (.inl ⟨raised, _, mem, commit, fault⟩)
  | @objected o _ mem objects => exact .inr (.inr ⟨o, mem, hmet o mem ▸ objects⟩)
  | @circular wal u data key transfer same =>
      -- nothing but the session has been closed
      subst transfer
      obtain ⟨os, o, ws₁, hos, -, -⟩ := withSession_ended htrail
      exact .inr (.inr ⟨o, by rw [hos]; simp, .circular same⟩)
  | @cached wal u o c read mem entry owner =>
      subst read
      obtain ⟨n, hn, x, hx, rfl⟩ := (cache_had h).2 o (mem_script.mp mem).1 wal c entry
      obtain ⟨y, hy, hsame⟩ := row_kept h hn hx
      refine .inr (.inr ⟨o, mem, .balance (fun z hz => ?_)⟩)
      cases hy.symm.trans hz
      rw [hsame.userId]
      exact owner
  | @apart wal u data key o o' x y transfer mem mem' row row' differs =>
      subst transfer
      rw [hmet o mem] at row
      rw [hmet o' mem'] at row'
      -- both rows in the later of the two states
      rcases Nat.le_total o.clock o'.clock with hle | hle
      · obtain ⟨x', hx', hsame⟩ := row_kept h hle row
        rw [← hsame.currency] at differs ⊢
        exact .inr (.inr ⟨o', mem', .apart hx' row' differs⟩)
      · obtain ⟨y', hy', hsame⟩ := row_kept h hle row'
        rw [← hsame.currency] at differs ⊢
        exact .inr (.inr ⟨o, mem, .apart row hy' differs⟩)
  | @unreported k o o' other key looked before bound missing =>
      have hmem : o ∈ w.store.script i := before.subset (by simp)
      have hclocks := h.clocks.sublist (before.trans List.filter_sublist)
      have hle : o.clock ≤ o'.clock := (List.pairwise_cons.mp hclocks).1 o' (by simp)
      rw [hmet o hmem] at bound
      rw [hmet o' (before.subset (by simp))] at missing
      refine .inr (.inr ⟨o, hmem, .unreported ⟨other, ⟨k, key, looked, bound⟩, ?_⟩⟩)
      -- a wallet that is missing later has been missing before
      cases hrow : (w.store.past engine db₀ o.clock).wallets.get t.path with
      | none => rfl
      | some x =>
          obtain ⟨y, hy, -⟩ := row_kept h hle hrow
          exact absurd (hy.symm.trans missing) (by simp)

/-- Ann takes 60 out of her 100 twice at once. -/
def overdraft : List LedgerAction :=
  opening ++ [.spawn (.withdraw 31 12 (withdrawalOf 60) none),
    .spawn (.withdraw 31 12 (withdrawalOf 60) none)]
    ++ advance 5 14 70 ++ advance 6 2 100

omit [Runtime] in
theorem overdraft_refused : ∃ w, (@ReachableFrom plainRuntime .empty w
    ∧ ended w 6 = some (.withdraw 31 12 (withdrawalOf 60) none, .error (.insufficientFunds 31)))
    ∧ ((∃ f, Exn.insufficientFunds 31 = .db f
        ∧ ∃ o, engine.Threw (w.store.script 6) o (.insufficientFunds 31) ∧ o.stmt.area ≠ .cache)
    ∨ (@Request.conflict plainRuntime (.withdraw 31 12 (withdrawalOf 60) none)
      = some (.insufficientFunds 31)
      ∧ ∃ o ∈ w.store.script 6, o.stmt = .commit ∧ o.inp.fault = some .integrity)
    ∨ ∃ o ∈ w.store.script 6, @Request.Objects plainRuntime (.withdraw 31 12 (withdrawalOf 60) none)
        (w.store.past engine .empty o.clock) (.insufficientFunds 31)) := by
  obtain ⟨w, hr, hw⟩ := exists_runPlain .empty overdraft (fun w => ended w 6)
    (v := some (.withdraw 31 12 (withdrawalOf 60) none, .error (.insufficientFunds 31)))
      (by decide +kernel)
  exact ⟨w, ⟨hr, hw⟩, @reachable_refused plainRuntime .empty w hr 6 _ _ hw _ rfl rfl⟩

end refusals

end WalletLedger
