import WalletLedger.Db.Tables

/-!
# Statements

Everything the application sends to the database, to the broker, to the cache and
to the clock, one constructor per statement, and what each of them does. A statement
runs against the session's view and the environment's choices (`Inp`): the uuid
and timestamps it draws, and whether it fails although the model sees no reason
for it to (a lost connection, say).

A failing database statement aborts the transaction: SQLAlchemy rolls the
session back, PostgreSQL releases the locks. A failing broker or cache call leaves
the transaction open.

An INSERT first has its values checked, then waits for every unique value it
brings (its primary key included), and fails if one of them is taken. The
`FOR KEY SHARE` locks of foreign keys are left out: the only referenced rows that
are ever locked `FOR UPDATE` are wallets, and a session that inserts a leg on a
wallet holds that lock itself.
-/

namespace WalletLedger

open Isolation

/-! ## The broker -/

/-- A message as `Producer.produce` takes it. -/
structure Message where
  topic : String
  /-- `str(event.aggregate_id)`. -/
  key : Uuid
  /-- `json.dumps(event.payload)`. -/
  value : Payload
  /-- The `event_type` header. -/
  eventType : String
  deriving DecidableEq, Repr

/-- A message handed to a producer. -/
structure Handed where
  /-- The producer object. -/
  producer : Nat
  /-- The publisher iteration that handed it over. -/
  sender : Sid
  msg : Message
  deriving DecidableEq, Repr

/-- A delivery report: `on_delivery(err, msg)`. -/
structure Report where
  /-- The iteration during whose call it fired. -/
  caller : Sid
  /-- Index of the message among those handed over. -/
  index : Nat
  /-- `None` for an acknowledged message. -/
  err : Option Nat
  deriving DecidableEq, Repr

/-- The value of a record in the topic. -/
inductive Value where
  /-- Not JSON. -/
  | malformed
  /-- JSON, but something `handle_event` reads off it is missing: its transaction id, or only what
  comes after that. -/
  | foreign (transactionId : Option Uuid)
  | event (payload : Payload)
  deriving DecidableEq, Repr

/-- The transaction a record is about, as far as `handle_event` finds out. -/
def Value.transactionId : Value → Option Uuid
  | .malformed => none
  | .foreign txnId => txnId
  | .event payload => some payload.transactionId

/--
The state outside the database. `seq` is the identity counter of
`ledger_entries`, which PostgreSQL never rolls back. The rest is the broker: what
producers were handed and what became of it, the topic's partitions, and the
analytics consumer group. `cache` is the balance cache, an entry per wallet.
-/
structure Outside where
  seq : Nat
  handed : List Handed
  /-- Indices of the messages the broker has acknowledged. -/
  acked : List Nat
  reports : List Report
  /-- The records of each partition. -/
  partitions : Nat → List Value
  /-- The group member a partition is assigned to. -/
  owner : Nat → Option Sid
  /-- The next offset that member fetches. -/
  position : Nat → Nat
  /-- Offset commits on their way to the broker. -/
  requested : List (Nat × Nat)
  /-- The committed offset of the group. -/
  committed : Nat → Nat
  cache : Uuid → Option CachedBalance

/-- Nothing sent, nothing consumed. -/
def Outside.init : Outside :=
  { seq := 0, handed := [], acked := [], reports := [], partitions := fun _ => [],
    owner := fun _ => none, position := fun _ => 0, requested := [], committed := fun _ => 0,
    cache := fun _ => none }

/-- What `Consumer.poll` returns. -/
inductive Polled where
  /-- Nothing within the timeout. -/
  | nothing
  /-- A message whose `error()` is set. -/
  | error (code : Nat)
  /-- A record. -/
  | record (part offset : Nat) (value : Value)
  deriving DecidableEq, Repr

/-- What the environment lets `poll` find. -/
inductive Fetch where
  | nothing
  | error (code : Nat)
  | next (part : Nat)
  deriving DecidableEq, Repr

/-! ## Statements, answers, choices -/

/-- One call out of the application. -/
inductive Stmt where
  | selectUserByEmail (email : String)
  | insertUser (name email passwordHash : String)
  | refreshUser (id : Uuid)
  | selectWallet (id : Uuid)
  | selectWalletForUpdate (id : Uuid)
  | selectWalletByUserAndCurrency (userId : Uuid) (currency : String)
  | insertWallet (userId : Uuid) (currency : String)
  | updateBalance (id : Uuid) (balance : Int)
  | refreshWallet (id : Uuid)
  | selectTransactionByKey (key : String)
  | insertTransaction (type : TransactionType) (status : TransactionStatus) (currency : String)
      (key : Option String)
  | updateStatus (id : Uuid) (status : TransactionStatus)
  | refreshTransaction (id : Uuid)
  | insertEntry (transactionId : Uuid) (entryType : EntryType) (amount : Int) (currency : String)
      (walletId : Option Uuid) (systemAccount : Option String)
  | insertEvent (aggregateType : String) (aggregateId : Uuid) (eventType : String)
      (payload : Payload)
  | selectUnpublished (limit : Nat)
  | updatePublished (id : Uuid) (publishedAt : Time)
  | selectProcessed (consumer : String) (transactionId : Uuid)
  | insertProcessed (consumer : String) (transactionId : Uuid)
  | selectStat (currency type : String)
  | insertStat (currency type : String) (count totalAmount : Int)
  | updateStat (currency type : String) (count totalAmount : Int)
  | selectEntries (walletId : Uuid) (limit offset : Nat)
  | selectLedgerBalances
  | selectWallets
  | commit
  | rollback
  | close
  /-- `datetime.now(timezone.utc)`. -/
  | now
  /-- The salt of a password hash. -/
  | salt
  | produce (producer : Nat) (msg : Message)
  | flush (producer : Nat)
  | subscribe
  | poll
  | commitOffset (part offset : Nat)
  | closeConsumer
  | cacheGet (walletId : Uuid)
  | cacheSetex (walletId : Uuid) (payload : CachedBalance)
  | cacheDelete (walletIds : List Uuid)
  deriving DecidableEq, Repr

/-- What a statement is answered with. -/
@[reducible] def Stmt.Ans : Stmt → Type
  | .selectUserByEmail _ => Option User
  | .insertUser _ _ _ => User
  | .refreshUser _ => User
  | .selectWallet _ => Option Wallet
  | .selectWalletForUpdate _ => Option Wallet
  | .selectWalletByUserAndCurrency _ _ => Option Wallet
  | .insertWallet _ _ => Wallet
  | .updateBalance _ _ => Unit
  | .refreshWallet _ => Wallet
  | .selectTransactionByKey _ => Option Transaction
  | .insertTransaction _ _ _ _ => Transaction
  | .updateStatus _ _ => Unit
  | .refreshTransaction _ => Transaction
  | .insertEntry _ _ _ _ _ _ => LedgerEntry
  | .insertEvent _ _ _ _ => OutboxEvent
  | .selectUnpublished _ => List OutboxEvent
  | .updatePublished _ _ => Unit
  | .selectProcessed _ _ => Option ProcessedEvent
  | .insertProcessed _ _ => Unit
  | .selectStat _ _ => Option TransactionStat
  | .insertStat _ _ _ _ => Unit
  | .updateStat _ _ _ _ => Unit
  | .selectEntries _ _ _ => List LedgerEntry
  | .selectLedgerBalances => List (Uuid × Int)
  | .selectWallets => List Wallet
  | .commit => Unit
  | .rollback => Unit
  | .close => Unit
  | .now => Time
  | .salt => Nat
  | .produce _ _ => List (Option Nat)
  | .flush _ => List (Option Nat) × Nat
  | .subscribe => Unit
  | .poll => Polled
  | .commitOffset _ _ => Unit
  | .closeConsumer => Unit
  | .cacheGet _ => Option CachedBalance
  | .cacheSetex _ _ => Unit
  | .cacheDelete _ => Unit

/-- The environment's choices for one statement; each reads the fields it needs. -/
structure Inp where
  /-- The statement fails with this error. -/
  fault : Option DbError := none
  /-- The broker call fails with this code. -/
  kafkaFault : Option Nat := none
  /-- `uuid.uuid4()`. -/
  uuid : Uuid := 0
  /-- `now()` of the transaction, or the Python clock. -/
  now : Time := 0
  salt : Nat := 0
  /-- The rows an `ORDER BY created_at LIMIT` settles on, ties being open. -/
  batch : List Uuid := []
  /-- The delivery reports that fire during the call. -/
  reports : List (Nat × Option Nat) := []
  fetch : Fetch := .nothing
  /-- The cache call raises; the flag says whether it was carried out all the same. -/
  cacheFault : Option Bool := none
  deriving DecidableEq, Repr

/-! ## Column checks -/

/-- The range of a `BIGINT` column. -/
def fitsBigint (x : Int) : Bool := decide (-(2 ^ 63) ≤ x) && decide (x < 2 ^ 63)

/-- The first error among checks, each with the error it stands for. -/
def firstError : List (Bool × DbError) → Option DbError
  | [] => none
  | (ok, e) :: rest => if ok then firstError rest else some e

/-- Values that pass every check. -/
theorem firstError_eq_none {checks : List (Bool × DbError)} :
    firstError checks = none ↔ ∀ c ∈ checks, c.1 = true := by
  induction checks with
  | nil => simp [firstError]
  | cons c checks ih =>
      obtain ⟨ok, e⟩ := c
      cases ok with
      | true => simp [firstError, ih]
      | false => simp [firstError]

/-- `INSERT INTO users`. -/
def checkUser (u : User) : Option DbError :=
  firstError [(decide (u.name.length ≤ 255), .data), (decide (u.email.length ≤ 255), .data),
    (decide (u.passwordHash.length ≤ 255), .data)]

/-- `INSERT INTO wallets`: the currency fits, the owner exists. -/
def checkWallet (db : Db) (w : Wallet) : Option DbError :=
  firstError [(decide (w.currency.length ≤ 3), .data), ((db.users.get w.userId).isSome, .integrity)]

/-- `UPDATE wallets`: range, then `ck_wallet_available_nonneg`. -/
def checkBalance (b : Int) : Option DbError :=
  firstError [(fitsBigint b, .data), (decide (0 ≤ b), .integrity)]

/-- `INSERT INTO transactions`. -/
def checkTransaction (t : Transaction) : Option DbError :=
  firstError [(decide (t.currency.length ≤ 3), .data),
    (decide (∀ k ∈ t.idempotencyKey, k.length ≤ 255), .data)]

/-- `INSERT INTO ledger_entries`: ranges, the two CHECKs, the two foreign keys. -/
def checkEntry (db : Db) (e : LedgerEntry) : Option DbError :=
  firstError [(fitsBigint e.amount, .data), (decide (e.currency.length ≤ 3), .data),
    (decide (∀ a ∈ e.systemAccount, a.length ≤ 50), .data),
    (decide (0 < e.amount), .integrity),
    (e.walletId.isSome != e.systemAccount.isSome, .integrity),
    ((db.transactions.get e.transactionId).isSome, .integrity),
    (decide (∀ w ∈ e.walletId, (db.wallets.get w).isSome = true), .integrity)]

/-- `INSERT INTO outbox_events`. -/
def checkEvent (e : OutboxEvent) : Option DbError :=
  firstError [(decide (e.aggregateType.length ≤ 50), .data),
    (decide (e.eventType.length ≤ 100), .data)]

/-- `INSERT INTO processed_events`. -/
def checkProcessed (p : ProcessedEvent) : Option DbError :=
  firstError [(decide (p.consumer.length ≤ 50), .data)]

/-- `INSERT INTO` or `UPDATE transaction_stats`. -/
def checkStat (r : TransactionStat) : Option DbError :=
  firstError [(decide (r.currency.length ≤ 3), .data), (decide (r.type.length ≤ 20), .data),
    (fitsBigint r.count, .data), (fitsBigint r.totalAmount, .data)]

/-- `OFFSET`, which is a `bigint`. -/
def checkOffset (offset : Nat) : Option DbError := firstError [(fitsBigint offset, .data)]

/-! ## Shapes of statements -/

section shapes

variable {β : Type} (inp : Inp) (o : Outside)

/-- The statement raises and the transaction is gone. -/
def failed (e : DbError) (locks : List Res) : Effect Write Res Outside Exn β :=
  { locks := locks, ctl := .abort, ans := .error (.db e), aux := o }

/-- A plain read. -/
def reads (a : β) : Effect Write Res Outside Exn β :=
  match inp.fault with
  | some e => failed o e []
  | none => { ans := .ok a, aux := o }

/-- A read fails by the environment's choice only. -/
theorem reads_cases (a : β) : (∃ e, inp.fault = some e ∧ reads inp o a = failed o e [])
    ∨ (inp.fault = none ∧ reads inp o a = { ans := .ok a, aux := o }) := by
  unfold reads
  cases h : inp.fault with
  | some e => exact .inl ⟨e, rfl, rfl⟩
  | none => exact .inr ⟨rfl, rfl⟩

/-- A read with a parameter that may be refused. -/
def readsChecked (check : Option DbError) (a : β) : Effect Write Res Outside Exn β :=
  match inp.fault, check with
  | some e, _ => failed o e []
  | none, some e => failed o e []
  | none, none => { ans := .ok a, aux := o }

theorem readsChecked_cases (check : Option DbError) (a : β) :
    (∃ e, (inp.fault = some e ∨ check = some e) ∧ readsChecked inp o check a = failed o e [])
      ∨ (inp.fault = none ∧ check = none ∧ readsChecked inp o check a
        = { ans := .ok a, aux := o }) := by
  unfold readsChecked
  cases hf : inp.fault with
  | some e => exact .inl ⟨e, .inl rfl, rfl⟩
  | none =>
      cases hc : check with
      | some e => exact .inl ⟨e, .inr rfl, rfl⟩
      | none => exact .inr ⟨rfl, rfl, rfl⟩

/-- `SELECT ... FOR UPDATE`: lock the row if there is one, and read it. -/
def readsLocked (a : Option β) (r : Res) : Effect Write Res Outside Exn (Option β) :=
  match inp.fault with
  | some e => failed o e []
  | none => { locks := if a.isSome then [r] else [], ans := .ok a, aux := o }

/-- A refresh: the row has to be there. -/
def refreshes (a : Option β) : Effect Write Res Outside Exn β :=
  match inp.fault, a with
  | some e, _ => failed o e []
  | none, some a => { ans := .ok a, aux := o }
  | none, none => failed o .stale []

/-- A change of rows: values checked first, then the locks, then whether the change
is possible at all (`clash` is the error if not). -/
def writes (check : Option DbError) (locks : List Res) (clash : Option DbError) (w : Write)
    (a : β) (o' : Outside) : Effect Write Res Outside Exn β :=
  match inp.fault, check, clash with
  | some e, _, _ => failed o e []
  | none, some e, _ => failed o e []
  | none, none, some e => failed o e locks
  | none, none, none => { locks := locks, writes := [w], ans := .ok a, aux := o' }

/-- An INSERT, failing on a taken unique value. -/
def inserts (check : Option DbError) (locks : List Res) (taken : Bool) (w : Write) (a : β)
    (o' : Outside) : Effect Write Res Outside Exn β :=
  writes inp o check locks (if taken then some .integrity else none) w a o'

/-- An UPDATE of one row, failing if the row is not there. -/
def updates (check : Option DbError) (r : Res) (found : Bool) (w : Write) :
    Effect Write Res Outside Exn Unit :=
  writes inp o check [r] (if found then none else some .stale) w () o

end shapes

/-! ## The publisher's poll -/

/-- Insertion-free test that `ids` is a possible answer to
`WHERE published_at IS NULL ORDER BY created_at LIMIT limit`. -/
def isBatch (db : Db) (limit : Nat) (ids : List Uuid) : Bool :=
  let open_ := db.outboxEvents.rows.filter (fun e => e.publishedAt.isNone)
  let rows := ids.filterMap db.outboxEvents.get
  decide ids.Nodup && decide (rows.length = ids.length) && rows.all (fun e => e.publishedAt.isNone)
    && decide (ids.length = min limit open_.length)
    && decide (rows.Pairwise (fun a b => a.createdAt ≤ b.createdAt))
    && open_.all (fun e => decide (e.id ∈ ids)
      || rows.all (fun a => decide (a.createdAt ≤ e.createdAt)))

/-! ## Broker calls -/

/-- A report is possible: the message is this producer's, has not been reported yet,
and is reported delivered only if the broker acknowledged it. -/
def canReport (o : Outside) (producer : Nat) (r : Nat × Option Nat) : Bool :=
  (match o.handed[r.1]? with
    | some h => decide (h.producer = producer)
    | none => false)
  && o.reports.all (fun p => decide (p.index ≠ r.1))
  && (r.2.isSome || decide (r.1 ∈ o.acked))

/-- Fire delivery reports one after another. -/
def fire (o : Outside) (producer : Nat) (i : Sid) : List (Nat × Option Nat) → Option Outside
  | [] => some o
  | r :: rs =>
      if canReport o producer r then
        fire { o with reports := o.reports ++ [⟨i, r.1, r.2⟩] } producer i rs
      else none

/-- How many messages of a producer have not been reported: what `flush` returns. -/
def undelivered (o : Outside) (producer : Nat) : Nat :=
  ((List.range o.handed.length).filter (fun n =>
    (match o.handed[n]? with
      | some h => decide (h.producer = producer)
      | none => false)
    && o.reports.all (fun p => decide (p.index ≠ n)))).length

/-- A broker call that raises; the database transaction stays open. -/
def kafkaFailed {β : Type} (o : Outside) (code : Nat) : Effect Write Res Outside Exn β :=
  { ans := .error (.kafka code), aux := o }

/-- `producer.produce(...)`. -/
def runProduce (inp : Inp) (i : Sid) (o : Outside) (producer : Nat) (msg : Message) :
    Option (Effect Write Res Outside Exn (List (Option Nat))) :=
  match inp.kafkaFault with
  | some c => some (kafkaFailed o c)
  | none =>
      match fire { o with handed := o.handed ++ [⟨producer, i, msg⟩] } producer i inp.reports with
      | some o' => some { ans := .ok (inp.reports.map Prod.snd), aux := o' }
      | none => none

/-- `producer.flush(timeout)`. -/
def runFlush (inp : Inp) (i : Sid) (o : Outside) (producer : Nat) :
    Option (Effect Write Res Outside Exn (List (Option Nat) × Nat)) :=
  match inp.kafkaFault with
  | some c => some (kafkaFailed o c)
  | none =>
      match fire o producer i inp.reports with
      | some o' =>
          some { ans := .ok (inp.reports.map Prod.snd, undelivered o' producer), aux := o' }
      | none => none

/-- A call of the producer raises, or fires the reports that are due. -/
theorem runProduce_cases {inp : Inp} {i : Sid} {o : Outside} {producer : Nat} {msg : Message}
    {e : Effect Write Res Outside Exn (List (Option Nat))}
    (h : runProduce inp i o producer msg = some e) :
    (∃ c, inp.kafkaFault = some c ∧ e = kafkaFailed o c)
      ∨ ∃ o', fire { o with handed := o.handed ++ [⟨producer, i, msg⟩] } producer i
        inp.reports = some o'
        ∧ e = { ans := .ok (inp.reports.map Prod.snd), aux := o' } := by
  unfold runProduce at h
  split at h
  · rename_i c hc
    exact .inl ⟨c, hc, (Option.some.inj h).symm⟩
  · split at h
    · rename_i o' ho
      exact .inr ⟨o', ho, (Option.some.inj h).symm⟩
    · exact absurd h (by simp)

theorem runFlush_cases {inp : Inp} {i : Sid} {o : Outside} {producer : Nat}
    {e : Effect Write Res Outside Exn (List (Option Nat) × Nat)}
    (h : runFlush inp i o producer = some e) :
    (∃ c, inp.kafkaFault = some c ∧ e = kafkaFailed o c)
      ∨ ∃ o', fire o producer i inp.reports = some o'
        ∧ e = { ans := .ok (inp.reports.map Prod.snd, undelivered o' producer), aux := o' } := by
  unfold runFlush at h
  split at h
  · rename_i c hc
    exact .inl ⟨c, hc, (Option.some.inj h).symm⟩
  · split at h
    · rename_i o' ho
      exact .inr ⟨o', ho, (Option.some.inj h).symm⟩
    · exact absurd h (by simp)

/-- `consumer.poll(timeout)`: the next record of a partition assigned to the caller. -/
def runPoll (inp : Inp) (i : Sid) (o : Outside) : Option (Effect Write Res Outside Exn Polled) :=
  match inp.fetch with
  | .nothing => some { ans := .ok .nothing, aux := o }
  | .error c => some { ans := .ok (.error c), aux := o }
  | .next p =>
      if o.owner p = some i then
        match (o.partitions p)[o.position p]? with
        | some v =>
            some { ans := .ok (.record p (o.position p) v)
                   aux := { o with position := upd o.position p (o.position p + 1) } }
        | none => none
      else none

/-- `consumer.commit(msg)`, which returns before the broker has answered. -/
def runCommitOffset (inp : Inp) (o : Outside) (p offset : Nat) :
    Effect Write Res Outside Exn Unit :=
  match inp.kafkaFault with
  | some c => kafkaFailed o c
  | none => { ans := .ok (), aux := { o with requested := o.requested ++ [(p, offset + 1)] } }

/-- A commit of an offset raises, or it is on its way. -/
theorem runCommitOffset_cases (inp : Inp) (o : Outside) (p offset : Nat) :
    (∃ c, runCommitOffset inp o p offset = kafkaFailed o c)
      ∨ runCommitOffset inp o p offset
        = { ans := .ok (), aux := { o with requested := o.requested ++ [(p, offset + 1)] } } := by
  unfold runCommitOffset
  cases inp.kafkaFault with
  | some c => exact .inl ⟨c, rfl⟩
  | none => exact .inr rfl

/-- The member leaves the group. -/
def Outside.leave (o : Outside) (i : Sid) : Outside :=
  { o with owner := fun p => if o.owner p = some i then none else o.owner p }

/-! ## Cache calls -/

/-- A call of the cache client that leads to `o'`, if it is carried out. -/
def runCache {β : Type} (inp : Inp) (o o' : Outside) (a : β) : Effect Write Res Outside Exn β :=
  match inp.cacheFault with
  | some applied => { ans := .error .cache, aux := if applied then o' else o }
  | none => { ans := .ok a, aux := o' }

/-- `setex`. The time to live is up to the environment (`Move.expire`). -/
def Outside.setex (o : Outside) (walletId : Uuid) (payload : CachedBalance) : Outside :=
  { o with cache := upd o.cache walletId (some payload) }

/-- `delete`. -/
def Outside.delete (o : Outside) (walletIds : List Uuid) : Outside :=
  { o with cache := fun id => if id ∈ walletIds then none else o.cache id }

/-- A call is carried out, unless it raises. -/
theorem runCache_aux {β : Type} (inp : Inp) (o o' : Outside) (a : β) :
    (runCache inp o o' a).aux = o' ∨ (inp.cacheFault ≠ none ∧ (runCache inp o o' a).aux = o) := by
  unfold runCache
  cases hf : inp.cacheFault with
  | none => exact .inl rfl
  | some b =>
      cases b with
      | true => exact .inl rfl
      | false => exact .inr ⟨by simp, rfl⟩

theorem Outside.setex_some {o : Outside} {id id' : Uuid} {c c' : CachedBalance}
    (h : (o.setex id' c').cache id = some c) : (id = id' ∧ c = c') ∨ o.cache id = some c := by
  by_cases hid : id = id'
  · subst hid
    have hself : some c' = some c := (upd_self o.cache id (some c')).symm.trans h
    exact .inl ⟨rfl, (Option.some.inj hself).symm⟩
  · exact .inr ((upd_ne o.cache (some c') hid).symm.trans h)

theorem Outside.delete_some {o : Outside} {ids : List Uuid} {id : Uuid} {c : CachedBalance}
    (h : (o.delete ids).cache id = some c) : o.cache id = some c ∧ id ∉ ids := by
  have hif : (if id ∈ ids then none else o.cache id) = some c := h
  by_cases hid : id ∈ ids
  · rw [if_pos hid] at hif
    exact absurd hif (by simp)
  · rw [if_neg hid] at hif
    exact ⟨hif, hid⟩

/-! ## What each statement does -/

/-- Execute a statement against the session's view `db`. -/
def run (q : Stmt) (inp : Inp) (i : Sid) (db : Db) (o : Outside) :
    Option (Effect Write Res Outside Exn q.Ans) :=
  match q with
  | .selectUserByEmail email => some (reads inp o (db.userByEmail email))
  | .insertUser name email hash =>
      let u : User := ⟨inp.uuid, name, email, hash⟩
      some (inserts inp o (checkUser u) [.user u.id, .email u.email]
        ((db.users.get u.id).isSome || (db.userByEmail u.email).isSome) (.insertUser u) u o)
  | .refreshUser id => some (refreshes inp o (db.users.get id))
  | .selectWallet id => some (reads inp o (db.wallets.get id))
  | .selectWalletForUpdate id => some (readsLocked inp o (db.wallets.get id) (.wallet id))
  | .selectWalletByUserAndCurrency u c => some (reads inp o (db.walletByUserAndCurrency u c))
  | .insertWallet userId currency =>
      let w : Wallet := ⟨inp.uuid, userId, currency, 0, 0, inp.now, inp.now⟩
      some (inserts inp o (checkWallet db w) [.wallet w.id, .walletOwner w.userId w.currency]
        ((db.wallets.get w.id).isSome || (db.walletByUserAndCurrency w.userId w.currency).isSome)
        (.insertWallet w) w o)
  | .updateBalance id b =>
      some (updates inp o (checkBalance b) (.wallet id) (db.wallets.get id).isSome
        (.setBalance id b inp.now))
  | .refreshWallet id => some (refreshes inp o (db.wallets.get id))
  | .selectTransactionByKey key => some (reads inp o (db.transactionByKey key))
  | .insertTransaction type status currency key =>
      let t : Transaction := ⟨inp.uuid, type, status, currency, key⟩
      some (inserts inp o (checkTransaction t)
        (.transaction t.id :: t.idempotencyKey.toList.map .idempotencyKey)
        ((db.transactions.get t.id).isSome
          || t.idempotencyKey.toList.any (fun k => (db.transactionByKey k).isSome))
        (.insertTransaction t) t o)
  | .updateStatus id st =>
      some (updates inp o none (.transaction id) (db.transactions.get id).isSome (.setStatus id st))
  | .refreshTransaction id => some (refreshes inp o (db.transactions.get id))
  | .insertEntry txn type amount currency walletId systemAccount =>
      let e : LedgerEntry :=
        ⟨inp.uuid, o.seq, txn, type, amount, currency, walletId, systemAccount, inp.now⟩
      some (inserts inp o (checkEntry db e) [.entry e.id] (db.ledgerEntries.get e.id).isSome
        (.insertEntry e) e { o with seq := o.seq + 1 })
  | .insertEvent aggregateType aggregateId eventType payload =>
      let e : OutboxEvent :=
        ⟨inp.uuid, aggregateType, aggregateId, eventType, payload, inp.now, none⟩
      some (inserts inp o (checkEvent e) [.event e.id] (db.outboxEvents.get e.id).isSome
        (.insertEvent e) e o)
  | .selectUnpublished limit =>
      if isBatch db limit inp.batch then
        some (reads inp o (inp.batch.filterMap db.outboxEvents.get))
      else none
  | .updatePublished id t =>
      some (updates inp o none (.event id) (db.outboxEvents.get id).isSome (.setPublished id t))
  | .selectProcessed consumer txn => some (reads inp o (db.processedEvents.get (consumer, txn)))
  | .insertProcessed consumer txn =>
      let p : ProcessedEvent := ⟨consumer, txn⟩
      some (inserts inp o (checkProcessed p) [.processed p.key]
        (db.processedEvents.get p.key).isSome (.insertProcessed p) () o)
  | .selectStat currency type => some (reads inp o (db.transactionStats.get (currency, type)))
  | .insertStat currency type count total =>
      let r : TransactionStat := ⟨currency, type, count, total⟩
      some (inserts inp o (checkStat r) [.stat r.key] (db.transactionStats.get r.key).isSome
        (.insertStat r) () o)
  | .updateStat currency type count total =>
      some (updates inp o (checkStat ⟨currency, type, count, total⟩) (.stat (currency, type))
        (db.transactionStats.get (currency, type)).isSome (.setStat (currency, type) count total))
  | .selectEntries id limit offset =>
      some (readsChecked inp o (checkOffset offset) (db.entriesPage id limit offset))
  | .selectLedgerBalances => some (reads inp o db.ledgerBalances)
  | .selectWallets => some (reads inp o db.wallets.rows)
  | .commit =>
      match inp.fault with
      | some e => some (failed o e [])
      | none => some { ctl := .commit, ans := .ok (), aux := o }
  | .rollback => some { ctl := .abort, ans := .ok (), aux := o }
  | .close => some { ctl := .abort, ans := .ok (), aux := o }
  | .now => some { ans := .ok inp.now, aux := o }
  | .salt => some { ans := .ok inp.salt, aux := o }
  | .produce producer msg => runProduce inp i o producer msg
  | .flush producer => runFlush inp i o producer
  | .subscribe => some { ans := .ok (), aux := o }
  | .poll => runPoll inp i o
  | .commitOffset p offset => some (runCommitOffset inp o p offset)
  | .closeConsumer => some { ans := .ok (), aux := o.leave i }
  | .cacheGet id => some (runCache inp o o (o.cache id))
  | .cacheSetex id payload => some (runCache inp o (o.setex id payload) ())
  | .cacheDelete ids => some (runCache inp o (o.delete ids) ())

/-! ## Moves of the broker and the cache -/

/-- What happens outside the application. -/
inductive Move where
  /-- The broker acknowledges a message and appends it to a partition. -/
  | ack (index part : Nat)
  /-- Somebody else writes a record. -/
  | append (part : Nat) (value : Value)
  /-- A partition is assigned to a group member, which resumes at the committed offset. -/
  | assign (part : Nat) (i : Sid)
  /-- A requested offset commit reaches the broker. -/
  | settle (index : Nat)
  /-- A requested offset commit is lost, or the broker refuses it. -/
  | lose (index : Nat)
  /-- A cached entry is dropped. -/
  | expire (walletId : Uuid)
  deriving DecidableEq, Repr

/-- Carry out a move. -/
def Outside.move (o : Outside) : Move → Option Outside
  | .ack n p =>
      match o.handed[n]? with
      | some h =>
          some { o with
            acked := o.acked ++ [n]
            partitions := upd o.partitions p (o.partitions p ++ [.event h.msg.value]) }
      | none => none
  | .append p v => some { o with partitions := upd o.partitions p (o.partitions p ++ [v]) }
  | .assign p i =>
      some { o with owner := upd o.owner p (some i), position := upd o.position p (o.committed p) }
  | .settle k =>
      match o.requested[k]? with
      | some (p, n) =>
          some { o with committed := upd o.committed p n, requested := o.requested.eraseIdx k }
      | none => none
  | .lose k => some { o with requested := o.requested.eraseIdx k }
  | .expire id => some (o.delete [id])

/-- What is acknowledged has been handed over, and is in the topic from then on. -/
theorem Outside.ack_cases {o o' : Outside} {n p : Nat} (h : o.move (.ack n p) = some o') :
    ∃ x, o.handed[n]? = some x ∧ o' = { o with
      acked := o.acked ++ [n]
      partitions := upd o.partitions p (o.partitions p ++ [.event x.msg.value]) } := by
  rw [Outside.move] at h
  cases hn : o.handed[n]? with
  | none => rw [hn] at h; exact absurd h (by simp)
  | some x =>
      rw [hn] at h
      exact ⟨x, rfl, (Option.some.inj h).symm⟩

/-- What is committed has been requested, and is on its way no longer. -/
theorem Outside.settle_cases {o o' : Outside} {k : Nat} (h : o.move (.settle k) = some o') :
    ∃ p n, o.requested[k]? = some (p, n) ∧ o' = { o with
      committed := upd o.committed p n
      requested := o.requested.eraseIdx k } := by
  rw [Outside.move] at h
  cases hk : o.requested[k]? with
  | none => rw [hk] at h; exact absurd h (by simp)
  | some x =>
      rw [hk] at h
      exact ⟨x.1, x.2, rfl, (Option.some.inj h).symm⟩

/-- What no move changes. -/
theorem Outside.move_same {o o' : Outside} {m : Move} (h : o.move m = some o') :
    o'.seq = o.seq ∧ o'.handed = o.handed := by
  cases m with
  | ack n p =>
      obtain ⟨x, -, rfl⟩ := Outside.ack_cases h
      exact ⟨rfl, rfl⟩
  | settle k =>
      obtain ⟨p, n, -, rfl⟩ := Outside.settle_cases h
      exact ⟨rfl, rfl⟩
  | append p v => cases h; exact ⟨rfl, rfl⟩
  | assign p i => cases h; exact ⟨rfl, rfl⟩
  | lose k => cases h; exact ⟨rfl, rfl⟩
  | expire id => cases h; exact ⟨rfl, rfl⟩

/-! ## What a statement can do

Whatever the database looks like. Statements fall into areas by what they may
change: most questions about a program need only the areas it uses.
-/

/-- The areas of the application's statements. -/
inductive Area where
  /-- Reads, transaction control, the clock. -/
  | plain
  /-- Reads of a wallet's history. -/
  | history
  /-- Accounts, transactions, legs, new events. -/
  | book
  /-- `published_at`. -/
  | stamp
  /-- The inbox and the rollup. -/
  | inbox
  /-- The producer. -/
  | send
  /-- The consumer. -/
  | consume
  /-- The balance cache. -/
  | cache
  deriving DecidableEq, Repr

/-- The area of a statement. -/
def Stmt.area : Stmt → Area
  | .insertUser _ _ _ | .insertWallet _ _ | .updateBalance _ _ | .insertTransaction _ _ _ _
  | .updateStatus _ _ | .insertEntry _ _ _ _ _ _ | .insertEvent _ _ _ _ => .book
  | .selectEntries _ _ _ => .history
  | .updatePublished _ _ => .stamp
  | .insertProcessed _ _ | .insertStat _ _ _ _ | .updateStat _ _ _ _ => .inbox
  | .produce _ _ | .flush _ => .send
  | .poll | .commitOffset _ _ | .closeConsumer => .consume
  | .cacheGet _ | .cacheSetex _ _ | .cacheDelete _ => .cache
  | _ => .plain

/-- The change of rows a statement is there for. -/
def Stmt.write (q : Stmt) (inp : Inp) (o : Outside) : Option Write :=
  match q with
  | .insertUser name email hash => some (.insertUser ⟨inp.uuid, name, email, hash⟩)
  | .insertWallet userId currency =>
      some (.insertWallet ⟨inp.uuid, userId, currency, 0, 0, inp.now, inp.now⟩)
  | .updateBalance id b => some (.setBalance id b inp.now)
  | .insertTransaction type status currency key =>
      some (.insertTransaction ⟨inp.uuid, type, status, currency, key⟩)
  | .updateStatus id st => some (.setStatus id st)
  | .insertEntry txn type amount currency walletId systemAccount =>
      some (.insertEntry
        ⟨inp.uuid, o.seq, txn, type, amount, currency, walletId, systemAccount, inp.now⟩)
  | .insertEvent aggregateType aggregateId eventType payload =>
      some (.insertEvent ⟨inp.uuid, aggregateType, aggregateId, eventType, payload, inp.now, none⟩)
  | .updatePublished id t => some (.setPublished id t)
  | .insertProcessed consumer txn => some (.insertProcessed ⟨consumer, txn⟩)
  | .insertStat currency type count total => some (.insertStat ⟨currency, type, count, total⟩)
  | .updateStat currency type count total => some (.setStat (currency, type) count total)
  | _ => none

/-- The area a write belongs to. -/
def Write.area : Write → Area
  | .setPublished _ _ => .stamp
  | .insertProcessed _ | .insertStat _ | .setStat _ _ _ => .inbox
  | _ => .book

theorem Stmt.write_area {q : Stmt} {inp : Inp} {o : Outside} {w : Write}
    (h : q.write inp o = some w) : w.area = q.area := by
  cases q <;> simp only [Stmt.write, Option.some.injEq, reduceCtorEq] at h <;> (subst h; rfl)

/-- The producer's side of the world is as it was. -/
structure Outside.SameSent (o o' : Outside) : Prop where
  handed : o'.handed = o.handed
  acked : o'.acked = o.acked
  reports : o'.reports = o.reports

/-- The topic and the consumer group are as they were. -/
structure Outside.SameGroup (o o' : Outside) : Prop where
  partitions : o'.partitions = o.partitions
  owner : o'.owner = o.owner
  position : o'.position = o.position
  requested : o'.requested = o.requested
  committed : o'.committed = o.committed

theorem Outside.SameSent.refl (o : Outside) : o.SameSent o := ⟨rfl, rfl, rfl⟩

theorem Outside.SameGroup.refl (o : Outside) : o.SameGroup o := ⟨rfl, rfl, rfl, rfl, rfl⟩

/-- The limits of a statement's effect. -/
structure Within (q : Stmt) (inp : Inp) (o : Outside) (e : Effect Write Res Outside Exn q.Ans) :
    Prop where
  /-- It writes the change it is there for, under the locks that change needs, or nothing. -/
  writes : e.writes = [] ∨ ∃ w, e.writes = [w] ∧ q.write inp o = some w ∧ e.locks = w.footprint
  /-- Only `commit` commits. -/
  commit : e.ctl = .commit → q = .commit
  /-- Only the producer's statements change the producer's side. -/
  sent : q.area ≠ .send → o.SameSent e.aux
  /-- Only the consumer's statements change the group. -/
  group : q.area ≠ .consume → o.SameGroup e.aux
  /-- Only the cache's statements change the cache. -/
  cache : q.area ≠ .cache → e.aux.cache = o.cache
  /-- The identity counter never goes back. -/
  seq : o.seq ≤ e.aux.seq

section shapes

variable {q : Stmt} {inp : Inp} {o o' : Outside} {e : Effect Write Res Outside Exn q.Ans}

/-- A statement that changes nothing. -/
theorem Within.idle (hw : e.writes = []) (hc : e.ctl ≠ .commit) (ho : e.aux = o) :
    Within q inp o e := by
  refine ⟨.inl hw, fun h => absurd h hc, fun _ => ?_, fun _ => ?_, fun _ => ?_, ?_⟩
  · rw [ho]; exact .refl o
  · rw [ho]; exact .refl o
  · rw [ho]
  · rw [ho]

/-- A change of rows. -/
theorem Within.ofWrites {check clash : Option DbError} {w : Write} {a : q.Ans}
    (hw : q.write inp o = some w) (hs : o.SameSent o') (hg : o.SameGroup o')
    (hc : o'.cache = o.cache) (hq : o.seq ≤ o'.seq)
    (h : some (WalletLedger.writes inp o check w.footprint clash w a o') = some e) :
    Within q inp o e := by
  cases h
  unfold WalletLedger.writes
  split
  · exact .idle rfl (by simp [failed]) rfl
  · exact .idle rfl (by simp [failed]) rfl
  · exact .idle rfl (by simp [failed]) rfl
  · exact ⟨.inr ⟨w, rfl, hw, rfl⟩, fun h => absurd h (by simp), fun _ => hs, fun _ => hg,
      fun _ => hc, hq⟩

theorem Within.ofReads {a : q.Ans} (h : some (reads inp o a) = some e) : Within q inp o e := by
  cases h
  unfold reads
  split
  · exact .idle rfl (by simp [failed]) rfl
  · exact .idle rfl (by simp) rfl

theorem Within.ofRefreshes {a : Option q.Ans} (h : some (refreshes inp o a) = some e) :
    Within q inp o e := by
  cases h
  unfold refreshes
  split
  · exact .idle rfl (by simp [failed]) rfl
  · exact .idle rfl (by simp) rfl
  · exact .idle rfl (by simp [failed]) rfl

/-- Firing reports adds them, and success is reported only of acknowledged messages. -/
theorem fire_eq {producer : Nat} {i : Sid} {rs : List (Nat × Option Nat)}
    (h : fire o producer i rs = some o') :
    o' = { o with reports := o.reports ++ rs.map (fun r => ⟨i, r.1, r.2⟩) }
      ∧ ∀ r ∈ rs, r.2 = none → r.1 ∈ o.acked := by
  induction rs generalizing o with
  | nil =>
      cases h
      exact ⟨by simp, by simp⟩
  | cons r rs ih =>
      rw [fire] at h
      split at h
      · rename_i hc
        obtain ⟨he, ha⟩ := ih h
        refine ⟨by rw [he]; simp, ?_⟩
        intro r' hr' hn
        rcases List.mem_cons.mp hr' with rfl | hr'
        · simp only [canReport, Bool.and_eq_true, Bool.or_eq_true, decide_eq_true_eq] at hc
          rcases hc.2 with hs | hs
          · rw [hn] at hs; exact absurd hs (by simp)
          · exact hs
        · exact ha r' hr' hn
      · exact absurd h (by simp)

/-- A broker call of the producer that went through. -/
theorem Within.ofSend {a : q.Ans} (hq : q.area = .send) (hg : o.SameGroup o')
    (hc : o'.cache = o.cache) (hseq : o'.seq = o.seq) :
    Within q inp o { ans := .ok a, aux := o' } :=
  ⟨.inl rfl, fun h => absurd h (by simp), fun h => absurd hq h, fun _ => hg, fun _ => hc, hseq.ge⟩

/-- A broker call of the consumer that went through. -/
theorem Within.ofConsume {a : q.Ans} (hq : q.area = .consume) (hs : o.SameSent o')
    (hc : o'.cache = o.cache) (hseq : o'.seq = o.seq) :
    Within q inp o { ans := .ok a, aux := o' } :=
  ⟨.inl rfl, fun h => absurd h (by simp), fun _ => hs, fun h => absurd hq h, fun _ => hc, hseq.ge⟩

/-- A call of the cache changes the cache or nothing. -/
theorem Within.ofCache {a : q.Ans} (hq : q.area = .cache) (hs : o.SameSent o') (hg : o.SameGroup o')
    (hseq : o'.seq = o.seq) (h : some (runCache inp o o' a) = some e) : Within q inp o e := by
  cases h
  unfold runCache
  split
  · rename_i applied _
    cases applied with
    | false => exact .idle rfl (by simp) rfl
    | true =>
        exact ⟨.inl rfl, fun h => absurd h (by simp), fun _ => hs, fun _ => hg,
          fun h => absurd hq h, hseq.ge⟩
  · exact ⟨.inl rfl, fun h => absurd h (by simp), fun _ => hs, fun _ => hg,
      fun h => absurd hq h, hseq.ge⟩

end shapes

/-- **Everything a statement can do**, whatever the database. -/
theorem run_within {q : Stmt} {inp : Inp} {i : Sid} {db : Db} {o : Outside}
    {e : Effect Write Res Outside Exn q.Ans} (h : run q inp i db o = some e) :
    Within q inp o e := by
  cases q with
  | insertUser | insertWallet | updateBalance | insertTransaction | updateStatus | insertEvent
  | updatePublished | insertProcessed | insertStat | updateStat =>
      exact .ofWrites rfl (.refl o) (.refl o) rfl (Nat.le_refl _) h
  | insertEntry =>
      have hs : o.SameSent { o with seq := o.seq + 1 } := ⟨rfl, rfl, rfl⟩
      exact .ofWrites rfl hs ⟨rfl, rfl, rfl, rfl, rfl⟩ rfl (Nat.le_succ _) h
  | selectWalletForUpdate id =>
      cases h
      unfold readsLocked
      split
      · exact .idle rfl (by simp [failed]) rfl
      · exact .idle rfl (by simp) rfl
  | refreshUser | refreshWallet | refreshTransaction => exact .ofRefreshes h
  | selectUserByEmail | selectWallet | selectWalletByUserAndCurrency | selectTransactionByKey
  | selectProcessed | selectStat | selectLedgerBalances | selectWallets => exact .ofReads h
  | selectEntries id limit offset =>
      cases h
      rcases readsChecked_cases inp o (checkOffset offset) (db.entriesPage id limit offset) with
        ⟨e, -, he⟩ | ⟨-, -, he⟩
      · rw [he]
        exact .idle rfl (by simp [failed]) rfl
      · rw [he]
        exact .idle rfl (by simp) rfl
  | selectUnpublished limit =>
      rw [run] at h
      split at h
      · exact .ofReads h
      · exact absurd h (by simp)
  | commit =>
      rw [run] at h
      split at h
      · cases h; exact .idle rfl (by simp [failed]) rfl
      · cases h
        exact ⟨.inl rfl, fun _ => rfl, fun _ => .refl o, fun _ => .refl o, fun _ =>
          rfl, Nat.le_refl _⟩
  | produce p msg =>
      rcases runProduce_cases h with ⟨c, -, rfl⟩ | ⟨o', ho, rfl⟩
      · exact .idle rfl (by simp [kafkaFailed]) rfl
      · rw [(fire_eq ho).1]
        exact .ofSend rfl ⟨rfl, rfl, rfl, rfl, rfl⟩ rfl rfl
  | flush p =>
      rcases runFlush_cases h with ⟨c, -, rfl⟩ | ⟨o', ho, rfl⟩
      · exact .idle rfl (by simp [kafkaFailed]) rfl
      · rw [(fire_eq ho).1]
        exact .ofSend rfl ⟨rfl, rfl, rfl, rfl, rfl⟩ rfl rfl
  | poll =>
      rw [run, runPoll] at h
      split at h
      · cases h; exact .idle rfl (by simp) rfl
      · cases h; exact .idle rfl (by simp) rfl
      · split at h
        · split at h
          · cases h; exact .ofConsume rfl ⟨rfl, rfl, rfl⟩ rfl rfl
          · exact absurd h (by simp)
        · exact absurd h (by simp)
  | commitOffset p offset =>
      cases h
      rcases runCommitOffset_cases inp o p offset with ⟨c, he⟩ | he
      · rw [he]
        exact .idle rfl (by simp [kafkaFailed]) rfl
      · rw [he]
        exact .ofConsume rfl ⟨rfl, rfl, rfl⟩ rfl rfl
  | closeConsumer =>
      cases h
      exact .ofConsume rfl ⟨rfl, rfl, rfl⟩ rfl rfl
  | cacheGet id => exact .ofCache rfl (.refl o) (.refl o) rfl h
  | cacheSetex id payload =>
      have hs : o.SameSent (o.setex id payload) := ⟨rfl, rfl, rfl⟩
      exact .ofCache rfl hs ⟨rfl, rfl, rfl, rfl, rfl⟩ rfl h
  | cacheDelete ids =>
      have hs : o.SameSent (o.delete ids) := ⟨rfl, rfl, rfl⟩
      exact .ofCache rfl hs ⟨rfl, rfl, rfl, rfl, rfl⟩ rfl h
  | rollback | close | now | salt | subscribe =>
      cases h
      exact .idle rfl (by simp) rfl

/-- A change of rows asks for its locks, if it gets that far. -/
theorem writes_locks {β : Type} {inp : Inp} {o o' : Outside} {check clash : Option DbError}
    {locks : List Res} {w : Write} {a : β} :
    ∀ r ∈ (writes inp o check locks clash w a o').locks, r ∈ locks := by
  intro r hr
  unfold writes at hr
  split at hr
  · exact absurd hr (by simp [failed])
  · exact absurd hr (by simp [failed])
  · exact hr
  · exact hr

/-- **What a statement can ask for**: what it is there to change, or the row it selects
`FOR UPDATE`. -/
theorem run_locks {q : Stmt} {inp : Inp} {i : Sid} {db : Db} {o : Outside}
    {e : Effect Write Res Outside Exn q.Ans} (h : run q inp i db o = some e) :
    ∀ r ∈ e.locks, (∃ w, q.write inp o = some w ∧ r ∈ w.footprint)
      ∨ ∃ id, q = .selectWalletForUpdate id ∧ r = .wallet id := by
  intro r hr
  have hread : ∀ {β : Type} (a : β), (reads inp o a).locks = [] := by
    intro β a
    rcases reads_cases inp o a with ⟨e, -, he⟩ | ⟨-, he⟩
    · rw [he]; rfl
    · rw [he]
  have hcache : ∀ {β : Type} (o' : Outside) (a : β), (runCache inp o o' a).locks = [] := by
    intro β o' a
    unfold runCache
    cases inp.cacheFault <;> rfl
  have hrefresh : ∀ {β : Type} (a : Option β), (refreshes inp o a).locks = [] := by
    intro β a
    unfold refreshes
    split <;> rfl
  cases q with
  | insertUser | insertWallet | updateBalance | insertTransaction | updateStatus | insertEvent
  | updatePublished | insertProcessed | insertStat | updateStat | insertEntry =>
      cases h
      exact .inl ⟨_, rfl, writes_locks r hr⟩
  | selectWalletForUpdate id =>
      cases h
      refine .inr ⟨id, rfl, ?_⟩
      unfold readsLocked at hr
      split at hr
      · exact absurd hr (by simp [failed])
      · by_cases hrow : (db.wallets.get id).isSome
        · rw [if_pos hrow] at hr
          exact List.mem_singleton.mp hr
        · rw [if_neg hrow] at hr
          exact absurd hr (by simp)
  | refreshUser | refreshWallet | refreshTransaction =>
      cases h
      rw [hrefresh] at hr
      exact absurd hr (by simp)
  | selectUserByEmail | selectWallet | selectWalletByUserAndCurrency | selectTransactionByKey
  | selectProcessed | selectStat | selectLedgerBalances | selectWallets =>
      cases h
      rw [hread] at hr
      exact absurd hr (by simp)
  | selectEntries id limit offset =>
      cases h
      rcases readsChecked_cases inp o (checkOffset offset) (db.entriesPage id limit offset) with
        ⟨e, -, he⟩ | ⟨-, -, he⟩
      · rw [he] at hr
        exact absurd hr (by simp [failed])
      · rw [he] at hr
        exact absurd hr (by simp)
  | selectUnpublished limit =>
      rw [run] at h
      split at h
      · cases h
        rw [hread] at hr
        exact absurd hr (by simp)
      · exact absurd h (by simp)
  | commit =>
      rw [run] at h
      split at h
      · cases h; exact absurd hr (by simp [failed])
      · cases h; exact absurd hr (by simp)
  | produce p msg =>
      rcases runProduce_cases h with ⟨c, -, rfl⟩ | ⟨o', -, rfl⟩
      · exact absurd hr (by simp [kafkaFailed])
      · exact absurd hr (by simp)
  | flush p =>
      rcases runFlush_cases h with ⟨c, -, rfl⟩ | ⟨o', -, rfl⟩
      · exact absurd hr (by simp [kafkaFailed])
      · exact absurd hr (by simp)
  | poll =>
      rw [run, runPoll] at h
      split at h
      · cases h; exact absurd hr (by simp)
      · cases h; exact absurd hr (by simp)
      · split at h
        · split at h
          · cases h; exact absurd hr (by simp)
          · exact absurd h (by simp)
        · exact absurd h (by simp)
  | commitOffset p offset =>
      cases h
      rcases runCommitOffset_cases inp o p offset with ⟨c, he⟩ | he
      · rw [he] at hr
        exact absurd hr (by simp [kafkaFailed])
      · rw [he] at hr
        exact absurd hr (by simp)
  | cacheGet | cacheSetex | cacheDelete =>
      cases h
      rw [hcache] at hr
      exact absurd hr (by simp)
  | closeConsumer | rollback | close | now | salt | subscribe =>
      cases h
      exact absurd hr (by simp)

/-- A statement takes the locks of everything it writes. -/
theorem run_covers {q : Stmt} {inp : Inp} {i : Sid} {db : Db} {o : Outside}
    {e : Effect Write Res Outside Exn q.Ans} (h : run q inp i db o = some e) :
    ∀ w ∈ e.writes, ∀ r ∈ w.footprint, r ∈ e.locks := by
  intro w hw r hr
  rcases (run_within h).writes with h₀ | ⟨w', h₁, -, hl⟩
  · rw [h₀] at hw; exact absurd hw (by simp)
  · rw [h₁, List.mem_singleton] at hw
    subst hw
    rw [hl]
    exact hr

/-- PostgreSQL at READ COMMITTED, together with the broker. -/
def engine : Engine Db Write Res Outside Stmt Inp Move Exn Stmt.Ans where
  apply := Db.apply
  footprint := Write.footprint
  same := Res.same
  same_refl := Res.same_refl
  same_trans := Res.same_trans
  same_apply := Res.same_apply
  run := run
  covers := run_covers
  env := fun m o => o.move m
  crash := fun i o => o.leave i

end WalletLedger
