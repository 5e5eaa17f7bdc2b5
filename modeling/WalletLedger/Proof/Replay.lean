import WalletLedger.Proof.Ledger

/-!
# The idempotency replay

`transfer` and `withdraw` answer a request whose key is bound without looking at
anything but the key. The three results here say exactly when such an answer is
the one the caller should get: when the wallet it reports is the caller's, when
the transaction it returns is the record of the request, and when the loser of a
race gets the winner's transaction.

All three conditions are about the states the replay's own reads met, which no
lock protects; `Moved` has kept them.
-/

namespace WalletLedger

open Isolation

variable [Runtime]

/-! ## Whose wallet is reported -/

/-- The wallet an answer reports is there, is the one in the path, and is the requester's. -/
def ReportsOwn (t : Request) (wallet : Option Wallet) : Prop :=
  ∃ x, wallet = some x ∧ x.id = t.path ∧ x.userId = t.requester

/-- The requester owns the wallet in the path. -/
def OwnsPath (t : Request) (db : Db) : Prop :=
  ∃ x, db.wallets.get t.path = some x ∧ x.userId = t.requester

omit [Runtime] in
theorem reportsOwn_iff {t : Request} {db : Db} :
    ReportsOwn t (db.wallets.get t.path) ↔ OwnsPath t db := by
  constructor
  · rintro ⟨x, hx, -, hu⟩
    exact ⟨x, hx, hu⟩
  · rintro ⟨x, hx, hu⟩
    exact ⟨x, hx, Table.key_of_get hx, hu⟩

/-- **An answer reports the requester's own wallet exactly when the replay, if it read the
path wallet, found it to be the requester's.** Nothing in the replay checks that. -/
theorem reported_wallet_iff (db₀ : Db) (w : LedgerWorld) (h : ReachableFrom db₀ w) (i : Sid)
    (t : Request) (txn : Transaction) (wallet : Option Wallet) (ht : t.movesMoney = true)
    (hs : ended w i = some (t, .ok (.moved txn wallet))) :
    ReportsOwn t wallet
      ↔ ∀ o ∈ w.store.trace, o.sid = i → o.stmt = .selectWallet t.path → OwnsPath t o.db := by
  have hread : ∀ o ∈ w.store.trace, o.sid = i → o.stmt = .selectWallet t.path →
      o ∈ readsOf i w.store := by
    intro o ho hi hq
    exact mem_readsOf.mpr ⟨ho, hi, by rw [hq]; rfl⟩
  cases reachable_moved h ht hs with
  | @own mv m x reads moves commit id owner =>
      refine ⟨fun _ o ho hi hq => ?_, fun _ => ⟨x, rfl, id, owner⟩⟩
      -- the operation went its own way, so it never read the wallet without a lock
      obtain ⟨k, -, hk, -⟩ := reads o (hread o ho hi hq)
      rw [hq] at hk
      exact absurd hk (by simp)
  | @replayed k _ pre o o' key reads misses hit read =>
      rw [reportsOwn_iff]
      constructor
      · intro hown o₁ ho₁ hi hq
        have hmem := hread o₁ ho₁ hi hq
        rw [reads, List.mem_append, List.mem_pair] at hmem
        rcases hmem with hmem | rfl | rfl
        · obtain ⟨k', -, hk', -⟩ := misses o₁ hmem
          rw [hq] at hk'
          exact absurd hk' (by simp)
        · rw [hit.1] at hq
          exact absurd hq (by simp)
        · exact hown
      · intro hall
        have hmem : o' ∈ readsOf i w.store := by rw [reads]; simp
        obtain ⟨ho', hi', -⟩ := mem_readsOf.mp hmem
        exact hall o' ho' hi' read.1

/-- Ann withdraws under a key, and her client sends the same request again. -/
def repeated : List LedgerAction :=
  opening ++ [.spawn (.withdraw 31 12 (withdrawalOf 30) (some "k"))] ++ advance 5 15 70
    ++ [.spawn (.withdraw 31 12 (withdrawalOf 30) (some "k"))] ++ advance 6 4 90

/-- What Ann is told the second time, and the leg her transaction has. -/
def repeatedly (w : LedgerWorld) :
    Option (Request × Except Exn Reply) × Option (Option Uuid × Int × String) :=
  (ended w 6, (w.store.db.leg 72 .debit).map (fun e => (e.walletId, e.amount, e.currency)))

omit [Runtime] in
/-- The replay answers her with her transaction and her wallet. -/
theorem repeated_answered : (runPlain .empty repeated).map repeatedly
    = some (some (.withdraw 31 12 ⟨30, "INR", by decide, by decide⟩ (some "k"),
        .ok (.moved ⟨72, .withdrawal, .completed, "INR", some "k"⟩
          (some ⟨31, 12, "INR", 70, 0, 0, 0⟩))), some (some 31, 30, "INR")) := by
  decide +kernel

/-- Ann withdraws under a key; Bob sends the same key with Ann's wallet in the path. -/
def eavesdrop : List LedgerAction :=
  opening ++ [.spawn (.withdraw 31 12 (withdrawalOf 30) (some "k"))] ++ advance 5 15 70
    ++ [.spawn (.withdraw 31 22 (withdrawalOf 1) (some "k"))] ++ advance 6 4 90

omit [Runtime] in
theorem eavesdrop_answered : (runPlain .empty eavesdrop).map (fun w => ended w 6)
    = some (some (.withdraw 31 22 ⟨1, "INR", by decide, by decide⟩ (some "k"),
        .ok (.moved ⟨72, .withdrawal, .completed, "INR", some "k"⟩
          (some ⟨31, 12, "INR", 70, 0, 0, 0⟩)))) := by
  decide +kernel

omit [Runtime] in
/-- Bob is told Ann's balance. -/
theorem foreign_wallet_reported : ¬∀ w, @ReachableFrom plainRuntime .empty w → ∀ i t txn wallet,
    t.movesMoney = true → ended w i = some (t, .ok (.moved txn wallet)) → ReportsOwn t wallet := by
  intro hall
  obtain ⟨w, hr, hw⟩ := exists_runPlain .empty eavesdrop (fun w => ended w 6) eavesdrop_answered
  obtain ⟨x, hx, -, hu⟩ := hall w hr 6 _ _ _ rfl hw
  cases hx
  exact absurd hu (by decide)

omit [Runtime] in
/-- Bob's answer fails on both sides of the condition, Ann's own replay meets both. -/
theorem eavesdrop_reported : (∃ w, (@ReachableFrom plainRuntime .empty w
    ∧ ended w 6 = some (.withdraw 31 22 ⟨1, "INR", by decide, by decide⟩ (some "k"),
        .ok (.moved ⟨72, .withdrawal, .completed, "INR", some "k"⟩
          (some ⟨31, 12, "INR", 70, 0, 0, 0⟩))))
    ∧ (ReportsOwn (.withdraw 31 22 ⟨1, "INR", by decide, by decide⟩ (some "k"))
          (some ⟨31, 12, "INR", 70, 0, 0, 0⟩)
        ↔ ∀ o ∈ w.store.trace, o.sid = 6 → o.stmt = .selectWallet 31 →
          OwnsPath (.withdraw 31 22 ⟨1, "INR", by decide, by decide⟩ (some "k")) o.db))
    ∧ ∃ w, (@ReachableFrom plainRuntime .empty w
      ∧ ended w 6 = some (.withdraw 31 12 ⟨30, "INR", by decide, by decide⟩ (some "k"),
          .ok (.moved ⟨72, .withdrawal, .completed, "INR", some "k"⟩
            (some ⟨31, 12, "INR", 70, 0, 0, 0⟩))))
      ∧ ReportsOwn (.withdraw 31 12 ⟨30, "INR", by decide, by decide⟩ (some "k"))
          (some ⟨31, 12, "INR", 70, 0, 0, 0⟩)
      ∧ ∀ o ∈ w.store.trace, o.sid = 6 → o.stmt = .selectWallet 31 →
          OwnsPath (.withdraw 31 12 ⟨30, "INR", by decide, by decide⟩ (some "k")) o.db := by
  constructor
  · obtain ⟨w, hr, hw⟩ := exists_runPlain .empty eavesdrop (fun w => ended w 6) eavesdrop_answered
    exact ⟨w, ⟨hr, hw⟩, @reported_wallet_iff plainRuntime .empty w hr 6 _ _ _ rfl hw⟩
  · obtain ⟨w, hr, hw⟩ := exists_runPlain .empty repeated repeatedly repeated_answered
    have hend : ended w 6 = _ := congrArg Prod.fst hw
    have hown : ReportsOwn (.withdraw 31 12 ⟨30, "INR", by decide, by decide⟩ (some "k"))
        (some ⟨31, 12, "INR", 70, 0, 0, 0⟩) := ⟨_, rfl, rfl, rfl⟩
    exact ⟨w, ⟨hr, hend⟩, hown,
      (@reported_wallet_iff plainRuntime .empty w hr 6 _ _ _ rfl hend).mp hown⟩

/-! ## Whose transaction is returned -/

/-- The debit leg of a transaction is on a wallet, for an amount in a currency. -/
def Debits (db : Db) (txn : Transaction) (walletId : Uuid) (amount : Int)
    (currency : String) : Prop :=
  ∃ e, db.leg txn.id .debit = some e ∧ e.walletId = some walletId ∧ e.amount = amount
    ∧ e.currency = currency

/-- A transaction is the record of exactly this `transfer` or `withdraw`. -/
def Request.Recorded (t : Request) (db : Db) (txn : Transaction) : Prop :=
  match t with
  | .transfer walletId _ data _ => txn.type = .transfer
      ∧ Debits db txn walletId data.amount (upper data.currency)
      ∧ ∃ e, db.leg txn.id .credit = some e ∧ e.walletId = some data.recipientWalletId
  | .withdraw walletId _ data _ => txn.type = .withdrawal
      ∧ Debits db txn walletId data.amount (upper data.currency)
  | _ => False

/-- The requests that carry an idempotency key. -/
def Request.isKeyed : Request → Bool
  | .transfer _ _ _ _ | .withdraw _ _ _ _ => true
  | _ => false

omit [Runtime] in
theorem movesMoney_of_isKeyed {t : Request} (h : t.isKeyed = true) : t.movesMoney = true := by
  cases t with
  | transfer | withdraw => rfl
  | _ => exact absurd h (by simp [Request.isKeyed])

/-- What a transaction records depends on its legs alone. -/
theorem Request.Recorded.congr {t : Request} {d d' : Db} {txn : Transaction}
    (h : d'.entriesOfTransaction txn.id = d.entriesOfTransaction txn.id) :
    t.Recorded d' txn ↔ t.Recorded d txn := by
  have hleg : ∀ type, d'.leg txn.id type = d.leg txn.id type := by
    intro type
    unfold Db.leg
    rw [h]
  unfold Request.Recorded Debits
  rw [hleg, hleg]

/-- The record of a movement is the record of the request that asked for it. -/
theorem Records.recorded {t : Request} {db : Db} {txn : Transaction} {mv : Movement} {m : Minted}
    (h : Records db txn mv m) (hmv : t.Moves mv) (ht : t.isKeyed = true) : t.Recorded db txn := by
  obtain ⟨hcredit, hdebit⟩ := h.leg
  have htype : txn.type = mv.type := by rw [h.txn]; rfl
  cases t with
  | transfer w u data key =>
      obtain ⟨s, r, hs, -, hc, hr, -, -, rfl⟩ := hmv
      refine ⟨htype, ⟨_, hdebit, ?_, rfl, hc⟩, _, hcredit, ?_⟩
      · exact congrArg some hs
      · exact congrArg some hr
  | withdraw w u data key =>
      obtain ⟨x, hx, -, hc, rfl⟩ := hmv
      exact ⟨htype, _, hdebit, congrArg some hx, rfl, hc⟩
  | _ => exact absurd ht (by simp [Request.isKeyed])

/-- **What a committed movement has left** is still there: its transaction, as the record of
its request. -/
theorem Chain.committed {db : Db} {cs : List LedgerCommit} (h : Chain .empty cs db)
    {c : LedgerCommit} (hc : c ∈ cs) {mv : Movement} {m : Minted} (hws : c.writes = mv.writes m)
    (hkeyed : c.tag.isKeyed = true) :
    db.transactions.get m.txn = some (mv.txn m) ∧ c.tag.Recorded db (mv.txn m)
      ∧ mv.key = c.tag.key := by
  obtain ⟨pre, post, rfl⟩ := List.append_of_mem hc
  obtain ⟨db₁, hpre, hrest⟩ := h.split
  cases hrest with
  | cons hl hpost =>
      obtain ⟨mv', m', hmv, hok, hu, hws'⟩ := hl.movement (movesMoney_of_isKeyed hkeyed)
      have hbooks := hpre.books books_empty
      have hp := Movement.posted hok.shaped hu
      -- the write set determines the header, and with it the transaction
      have hheader : mv.header m = mv'.header m' := Movement.writes_header (hws.symm.trans hws')
      have htxn : mv.txn m = mv'.txn m' := congrArg (Transaction.setStatus .completed) hheader
      have hid : m.txn = m'.txn := congrArg Transaction.id hheader
      have hkey : mv.key = mv'.key := congrArg Transaction.idempotencyKey hheader
      rw [← hws'] at hp
      have hget : (db₁.applyAll c.writes).transactions.get m'.txn = some (mv'.txn m') :=
        Table.get_eq_some.mpr ⟨by rw [hp.transactions]; simp, rfl⟩
      obtain ⟨hfin, hlegs⟩ := Evolves.final ⟨post, hpost⟩ hget
      have hrec : Records (db₁.applyAll c.writes) (mv'.txn m') mv' m' :=
        hbooks.record_posted hok hu hp
      refine ⟨by rw [hid, htxn]; exact hfin, ?_, ?_⟩
      · rw [htxn, Request.Recorded.congr (d := db₁.applyAll c.writes) hlegs]
        exact hrec.recorded hmv hkeyed
      · rw [hkey]
        exact hmv.carries

/-- **A returned transaction is the record of the request exactly when every lookup of its
key that found one found such a record.** The replay compares nothing. -/
theorem returned_transaction_iff (w : LedgerWorld) (h : ReachableFrom .empty w) (i : Sid)
    (t : Request) (txn : Transaction) (wallet : Option Wallet) (ht : t.isKeyed = true)
    (hs : ended w i = some (t, .ok (.moved txn wallet))) :
    t.Recorded w.store.db txn
      ↔ ∀ o ∈ w.store.trace, o.sid = i → ∀ k x, t.key = some k →
        o.stmt = .selectTransactionByKey k → o.db.transactionByKey k = some x →
          t.Recorded o.db x := by
  have hset := reachable_settled h
  have hread : ∀ o ∈ w.store.trace, o.sid = i → ∀ k, o.stmt = .selectTransactionByKey k →
      o ∈ readsOf i w.store := by
    intro o ho hi k hq
    exact mem_readsOf.mpr ⟨ho, hi, by rw [hq]; rfl⟩
  have hmiss : ∀ o k x, Unbound t.key o → o.stmt = .selectTransactionByKey k →
      o.db.transactionByKey k = some x → False := by
    rintro o k x ⟨k', -, hk', -, hnone⟩ hq hx
    rw [hq] at hk'
    cases hk'
    rw [hnone] at hx
    exact absurd hx (by simp)
  cases reachable_moved h (movesMoney_of_isKeyed ht) hs with
  | @own mv m x reads moves commit id owner =>
      obtain ⟨-, hrec, -⟩ := hset.history.committed commit rfl ht
      refine ⟨fun _ o ho hi k x _ hq hx => ?_, fun _ => hrec⟩
      exact (hmiss o k x (reads o (hread o ho hi k hq)) hq hx).elim
  | @replayed k _ pre o o' key reads misses hit read =>
      have hmem : o ∈ readsOf i w.store := by rw [reads]; simp
      obtain ⟨ho, hi, -⟩ := mem_readsOf.mp hmem
      obtain ⟨hq, -, hx⟩ := hit
      -- the transaction found is final, so it is now what it was then
      obtain ⟨-, hlegs⟩ := (hset.seen o ho).final (Db.transactionByKey_some hx).1
      rw [Request.Recorded.congr hlegs]
      constructor
      · intro hrec o₁ ho₁ hi₁ k₁ x₁ hk₁ hq₁ hx₁
        have hmem₁ := hread o₁ ho₁ hi₁ k₁ hq₁
        rw [reads, List.mem_append, List.mem_pair] at hmem₁
        rcases hmem₁ with hmem₁ | rfl | rfl
        · exact (hmiss o₁ k₁ x₁ (misses o₁ hmem₁) hq₁ hx₁).elim
        · rw [hq] at hq₁
          cases hq₁
          rw [hx] at hx₁
          cases hx₁
          exact hrec
        · rw [read.1] at hq₁
          exact absurd hq₁ (by simp)
      · intro hall
        exact hall o ho hi k txn key hq hx

/-- Ann withdraws under a key; Bob withdraws from his own empty wallet under the same key. -/
def collide : List LedgerAction :=
  opening ++ [.spawn (.withdraw 31 12 (withdrawalOf 30) (some "k"))] ++ advance 5 15 70
    ++ [.spawn (.withdraw 41 22 (withdrawalOf 1) (some "k"))] ++ advance 6 4 90

/-- What Bob is told, and the wallet his transaction debits. -/
def collided (w : LedgerWorld) : Option (Request × Except Exn Reply) × Option (Option Uuid) :=
  (ended w 6, (w.store.db.leg 72 .debit).map LedgerEntry.walletId)

omit [Runtime] in
theorem collide_answered : (runPlain .empty collide).map collided
    = some (some (.withdraw 41 22 ⟨1, "INR", by decide, by decide⟩ (some "k"),
        .ok (.moved ⟨72, .withdrawal, .completed, "INR", some "k"⟩
          (some ⟨41, 22, "INR", 0, 0, 0, 0⟩))), some (some 31)) := by
  decide +kernel

omit [Runtime] in
/-- Bob is told that his withdrawal is done; no money of his has moved. -/
theorem foreign_transaction_returned : ¬∀ w, @ReachableFrom plainRuntime .empty w →
    ∀ i t txn wallet, t.isKeyed = true → ended w i = some (t, .ok (.moved txn wallet)) →
      @Request.Recorded plainRuntime t w.store.db txn := by
  intro hall
  obtain ⟨w, hr, hw⟩ := exists_runPlain .empty collide collided collide_answered
  have hend : ended w 6 = _ := congrArg Prod.fst hw
  have hleg : (w.store.db.leg 72 .debit).map LedgerEntry.walletId = some (some 31) :=
    congrArg Prod.snd hw
  obtain ⟨-, e, he, hwallet, -⟩ := hall w hr 6 _ _ _ rfl hend
  rw [he, Option.map_some, hwallet] at hleg
  exact absurd hleg (by decide)

omit [Runtime] in
/-- Bob's answer fails on both sides of the condition, Ann's own replay meets both. -/
theorem collide_returned : (∃ w, (@ReachableFrom plainRuntime .empty w
    ∧ ended w 6 = some (.withdraw 41 22 ⟨1, "INR", by decide, by decide⟩ (some "k"),
        .ok (.moved ⟨72, .withdrawal, .completed, "INR", some "k"⟩
          (some ⟨41, 22, "INR", 0, 0, 0, 0⟩))))
    ∧ (@Request.Recorded plainRuntime (.withdraw 41 22 ⟨1, "INR", by decide, by decide⟩ (some "k"))
          w.store.db ⟨72, .withdrawal, .completed, "INR", some "k"⟩
        ↔ ∀ o ∈ w.store.trace, o.sid = 6 → ∀ k x, some "k" = some k →
          o.stmt = .selectTransactionByKey k → o.db.transactionByKey k = some x →
          @Request.Recorded plainRuntime
            (.withdraw 41 22 ⟨1, "INR", by decide, by decide⟩ (some "k")) o.db x))
    ∧ ∃ w, (@ReachableFrom plainRuntime .empty w
      ∧ ended w 6 = some (.withdraw 31 12 ⟨30, "INR", by decide, by decide⟩ (some "k"),
          .ok (.moved ⟨72, .withdrawal, .completed, "INR", some "k"⟩
            (some ⟨31, 12, "INR", 70, 0, 0, 0⟩))))
      ∧ @Request.Recorded plainRuntime
          (.withdraw 31 12 ⟨30, "INR", by decide, by decide⟩ (some "k")) w.store.db
          ⟨72, .withdrawal, .completed, "INR", some "k"⟩
      ∧ ∀ o ∈ w.store.trace, o.sid = 6 → ∀ k x, some "k" = some k →
          o.stmt = .selectTransactionByKey k → o.db.transactionByKey k = some x →
          @Request.Recorded plainRuntime
            (.withdraw 31 12 ⟨30, "INR", by decide, by decide⟩ (some "k")) o.db x := by
  constructor
  · obtain ⟨w, hr, hw⟩ := exists_runPlain .empty collide collided collide_answered
    have hend : ended w 6 = _ := congrArg Prod.fst hw
    exact ⟨w, ⟨hr, hend⟩, @returned_transaction_iff plainRuntime w hr 6 _ _ _ rfl hend⟩
  · obtain ⟨w, hr, hw⟩ := exists_runPlain .empty repeated repeatedly repeated_answered
    have hend : ended w 6 = _ := congrArg Prod.fst hw
    obtain ⟨e, he, hleg⟩ := Option.map_eq_some_iff.mp (congrArg Prod.snd hw)
    have hrec : @Request.Recorded plainRuntime
        (.withdraw 31 12 ⟨30, "INR", by decide, by decide⟩ (some "k")) w.store.db
        ⟨72, .withdrawal, .completed, "INR", some "k"⟩ :=
      ⟨rfl, e, he, congrArg Prod.fst hleg, congrArg (fun p => p.2.1) hleg,
        congrArg (fun p => p.2.2) hleg⟩
    exact ⟨w, ⟨hr, hend⟩, hrec,
      (@returned_transaction_iff plainRuntime w hr 6 _ _ _ rfl hend).mp hrec⟩

/-! ## Who wins -/

/-- Once a key is bound it stays bound. -/
theorem Evolves.bound {db db' : Db} (h : Evolves db db') {k : String} {txn : Transaction}
    (ht : db.transactions.get txn.id = some txn) (hk : txn.idempotencyKey = some k) :
    db'.transactionByKey k ≠ none := by
  intro hnone
  unfold Db.transactionByKey at hnone
  have hmem := Table.mem_of_get (h.final ht).1
  have := List.find?_eq_none.mp hnone txn hmem
  exact this (by simpa using hk)

/-- A legal commit of a keyed request finds its key unbound, and binds it. -/
theorem Legal.binds {t : Request} {db : Db} {ws : List Write} (h : Legal t db ws) {k : String}
    (hk : t.key = some k) : db.transactionByKey k = none
      ∧ ∃ txn, (db.applyAll ws).transactions.get txn.id = some txn
        ∧ txn.idempotencyKey = some k := by
  have hmoney : t.movesMoney = true := by
    cases t with
    | transfer | withdraw => rfl
    | _ => exact absurd hk (by simp [Request.key])
  obtain ⟨mv, m, hmv, hok, hu, rfl⟩ := h.movement hmoney
  have hkey : mv.key = some k := hmv.carries.trans hk
  have hp := Movement.posted hok.shaped hu
  refine ⟨hok.key k hkey, mv.txn m, ?_, hkey⟩
  exact Table.get_eq_some.mpr ⟨by rw [hp.transactions]; simp, rfl⟩

/-- **A key is committed once.** -/
theorem Chain.key_once {db db' : Db} {cs : List LedgerCommit} (h : Chain db cs db') {k : String} :
    cs.Pairwise (fun a b => a.tag.key = some k → b.tag.key ≠ some k) := by
  induction h with
  | nil => exact .nil
  | cons hl hr ih =>
      rename_i db db' c cs
      refine .cons (fun b hb hck hbk => ?_) ih
      obtain ⟨-, txn, htxn, hkey⟩ := hl.binds hck
      obtain ⟨pre, post, rfl⟩ := List.append_of_mem hb
      obtain ⟨db₁, hpre, hrest⟩ := hr.split
      cases hrest with
      | cons hlb _ => exact Evolves.bound ⟨pre, hpre⟩ htxn hkey (hlb.binds hbk).1

omit [Runtime] in
/-- Of commits no two of which have the key, only one is left when filtering for it. -/
theorem filter_key_eq {cs : List LedgerCommit} {k : String} {c : LedgerCommit} (hc : c ∈ cs)
    (hk : c.tag.key = some k)
    (h : cs.Pairwise (fun a b => a.tag.key = some k → b.tag.key ≠ some k)) :
    cs.filter (fun c => decide (c.tag.key = some k)) = [c] := by
  obtain ⟨pre, post, rfl⟩ := List.append_of_mem hc
  obtain ⟨-, hpost, hcross⟩ := List.pairwise_append.mp h
  have hpre : pre.filter (fun c => decide (c.tag.key = some k)) = [] := by
    rw [List.filter_eq_nil_iff]
    intro a ha hak
    exact hcross a ha c (by simp) (by simpa using hak) hk
  have hpost' : post.filter (fun c => decide (c.tag.key = some k)) = [] := by
    rw [List.filter_eq_nil_iff]
    intro b hb hbk
    exact (List.pairwise_cons.mp hpost).1 b hb hk (by simpa using hbk)
  rw [List.filter_append, List.filter_cons, hpre, hpost']
  simp [hk]

/-- A lookup of session `j` met its key bound, and no read of its replay failed. -/
def MetBound (j : Sid) (k : String) (s : LedgerStore) : Prop :=
  (∃ o ∈ s.trace, o.sid = j ∧ o.stmt = .selectTransactionByKey k ∧ o.db.transactionByKey k ≠ none)
    ∧ ∀ o ∈ readsOf j s, o.inp.fault = none

omit [Runtime] in
/-- A session all of whose lookups missed has not met its key bound. -/
theorem not_metBound {j : Sid} {k : String} {s : LedgerStore} {key : Option String}
    (h : ∀ o ∈ readsOf j s, Unbound key o) : ¬MetBound j k s := by
  rintro ⟨⟨o, ho, hj, hq, hbound⟩, -⟩
  have hmem : o ∈ readsOf j s := mem_readsOf.mpr ⟨ho, hj, by rw [hq]; rfl⟩
  obtain ⟨k', -, hq', -, hnone⟩ := h o hmem
  rw [hq] at hq'
  cases hq'
  exact hbound hnone

/-- **The loser of a race between identical requests returns the winner's transaction exactly
when one of its lookups came after the winner's commit** and its replay was answered. The
money moves once in any case. -/
theorem identical_request_iff (w : LedgerWorld) (h : ReachableFrom .empty w) (i : Sid) (t : Request)
    (k : String) (ws : List Write) (hk : t.key = some k) (hc : ⟨i, t, ws⟩ ∈ w.store.commits) :
    w.store.commits.filter (fun c => decide (c.tag.key = some k)) = [⟨i, t, ws⟩]
      ∧ ∃ txn ∈ w.store.db.transactions.rows, (∃ t₀, .insertTransaction t₀ ∈ ws ∧ t₀.id = txn.id)
        ∧ ∀ j r, j ≠ i → ended w j = some (t, r) →
          ((∃ wallet, r = .ok (.moved txn wallet)) ↔ MetBound j k w.store) := by
  have hset := reachable_settled h
  have hbooks := reachable_books h
  have hone := filter_key_eq hc hk hset.history.key_once
  have hkeyed : t.isKeyed = true := by
    cases t with
    | transfer | withdraw => rfl
    | _ => exact absurd hk (by simp [Request.key])
  obtain ⟨pre, post, hsplit⟩ := List.append_of_mem hc
  have hchain := hset.history
  rw [hsplit] at hchain
  obtain ⟨db₁, -, hrest⟩ := hchain.split
  cases hrest with
  | cons hl _ =>
  obtain ⟨mv, m, hmv, -, -, hws⟩ := hl.movement (movesMoney_of_isKeyed hkeyed)
  obtain ⟨hget, -, hmk⟩ := hset.history.committed hc hws hkeyed
  have hbound : (mv.txn m).idempotencyKey = some k := hmk.trans hk
  refine ⟨hone, mv.txn m, Table.mem_of_get hget, ⟨mv.header m, ?_, rfl⟩, fun j r hj hend => ?_⟩
  · have hws : ws = mv.writes m := hws
    rw [hws]
    simp [Movement.writes]
  cases reachable_moved h (movesMoney_of_isKeyed hkeyed) hend with
  | raised reads =>
      refine ⟨fun hr => ?_, fun hmet => ?_⟩
      · obtain ⟨wallet, hr⟩ := hr
        exact absurd hr (by simp)
      · rcases reads with hmiss | ⟨o, ho, hfault⟩
        · exact (not_metBound hmiss hmet).elim
        · exact absurd (hmet.2 o ho) hfault
  | @own mv' m' x reads moves commit id owner =>
      -- a second commit under the key: there is none
      have hmem : (⟨j, t, mv'.writes m'⟩ : LedgerCommit)
          ∈ w.store.commits.filter (fun c => decide (c.tag.key = some k)) :=
        List.mem_filter.mpr ⟨commit, by simpa using hk⟩
      rw [hone, List.mem_singleton] at hmem
      exact absurd (congrArg Commit.sid hmem) hj
  | @replayed k' txn pre' o o' key reads misses hit read =>
      obtain ⟨hq, hfault, hx⟩ := hit
      rw [hk] at key
      cases key
      have hmem : o ∈ readsOf j w.store := by rw [reads]; simp
      obtain ⟨ho, hoj, -⟩ := mem_readsOf.mp hmem
      obtain ⟨hrow, hrowk⟩ := Db.transactionByKey_some hx
      obtain ⟨hnow, -⟩ := (hset.seen o ho).final hrow
      have hsame : txn = mv.txn m :=
        hbooks.keys txn (Table.mem_of_get hnow) (mv.txn m) (Table.mem_of_get hget) k hrowk hbound
      refine ⟨fun _ => ⟨⟨o, ho, hoj, hq, by rw [hx]; simp⟩, ?_⟩, fun _ => ⟨_, by rw [hsame]⟩⟩
      intro o₁ ho₁
      rw [reads, List.mem_append, List.mem_pair] at ho₁
      rcases ho₁ with ho₁ | rfl | rfl
      · obtain ⟨_, -, -, hnone, -⟩ := misses o₁ ho₁
        exact hnone
      · exact hfault
      · exact read.2

/-- Ann's client sends one withdrawal twice, at the same time. -/
def race : List LedgerAction :=
  opening ++ [.spawn (.withdraw 31 12 (withdrawalOf 60) (some "k")),
      .spawn (.withdraw 31 12 (withdrawalOf 60) (some "k"))]
    ++ advance 6 1 70 ++ advance 5 15 80 ++ advance 6 2 100

/-- How the second one ends, and whether the first one has committed. -/
def raced (w : LedgerWorld) : Option (Request × Except Exn Reply) × Bool :=
  (ended w 6, w.store.commits.any (fun c => decide (requestOf c
    = (5, .withdraw 31 12 (withdrawalOf 60) (some "k")))))

omit [Runtime] in
theorem exists_race : ∃ w ws, @ReachableFrom plainRuntime .empty w
    ∧ ended w 6 = some (.withdraw 31 12 ⟨60, "INR", by decide, by decide⟩ (some "k"),
        .error (.insufficientFunds 31))
    ∧ ⟨5, .withdraw 31 12 ⟨60, "INR", by decide, by decide⟩ (some "k"), ws⟩ ∈ w.store.commits := by
  obtain ⟨w, hr, hw⟩ := exists_runPlain .empty race raced
    (v := (some (.withdraw 31 12 ⟨60, "INR", by decide, by decide⟩ (some "k"),
      .error (.insufficientFunds 31)), true)) (by decide +kernel)
  have hend : ended w 6 = _ := congrArg Prod.fst hw
  obtain ⟨c, hc, hreq⟩ := List.any_eq_true.mp (congrArg Prod.snd hw)
  obtain ⟨sid, tag, ws⟩ := c
  cases of_decide_eq_true hreq
  exact ⟨w, ws, hr, hend, hc⟩

omit [Runtime] in
/-- The second one is told that Ann has not enough money. -/
theorem loser_raises : ¬∀ w, @ReachableFrom plainRuntime .empty w → ∀ i t k ws, t.key = some k →
    k ≠ "" → ⟨i, t, ws⟩ ∈ w.store.commits → ∀ j r, j ≠ i → ended w j = some (t, r) →
      ∃ txn wallet, r = .ok (.moved txn wallet) ∧ txn.idempotencyKey = some k := by
  intro hall
  obtain ⟨w, ws, hr, hend, hc⟩ := exists_race
  obtain ⟨txn, wallet, h, -⟩ := hall w hr 5 _ "k" ws rfl (by decide) hc 6 _ (by decide) hend
  exact absurd h (by simp)

/-- The client sends it a third time, once the race is over. -/
def raceAgain : List LedgerAction :=
  race ++ [.spawn (.withdraw 31 12 (withdrawalOf 60) (some "k"))] ++ advance 7 4 110

/-- Some lookup of the session met its key bound, and all its reads were answered. -/
def metBound (j : Sid) (k : String) (s : LedgerStore) : Bool :=
  s.trace.any (fun o => decide (o.sid = j ∧ o.stmt = .selectTransactionByKey k)
      && (o.db.transactionByKey k).isSome)
    && (readsOf j s).all (fun o => o.inp.fault.isNone)

omit [Runtime] in
theorem MetBound.of_metBound {j : Sid} {k : String} {s : LedgerStore} (h : metBound j k s = true) :
    MetBound j k s := by
  obtain ⟨hany, hall⟩ := Bool.and_eq_true_iff.mp h
  obtain ⟨o, ho, hlook⟩ := List.any_eq_true.mp hany
  obtain ⟨hq, hbound⟩ := Bool.and_eq_true_iff.mp hlook
  obtain ⟨hsid, hstmt⟩ := of_decide_eq_true hq
  refine ⟨⟨o, ho, hsid, hstmt, fun hnone => ?_⟩, fun o' ho' => ?_⟩
  · rw [hnone] at hbound
    exact absurd hbound (by simp)
  · exact Option.isNone_iff_eq_none.mp (List.all_eq_true.mp hall o' ho')

/-- How the two losers end, whether the first one has committed, and whether the last one
came after it. -/
def retried (w : LedgerWorld) : List (Option (Request × Except Exn Reply)) × Bool × Bool :=
  ([ended w 6, ended w 7], (raced w).2, metBound 7 "k" w.store)

omit [Runtime] in
theorem retried_answered : (runPlain .empty raceAgain).map retried
    = some ([some (.withdraw 31 12 ⟨60, "INR", by decide, by decide⟩ (some "k"),
        .error (.insufficientFunds 31)),
      some (.withdraw 31 12 ⟨60, "INR", by decide, by decide⟩ (some "k"),
        .ok (.moved ⟨82, .withdrawal, .completed, "INR", some "k"⟩
          (some ⟨31, 12, "INR", 40, 0, 0, 0⟩)))], true, true) := by
  decide +kernel

omit [Runtime] in
/-- Of the two that lose, the one that looked the key up too early raises and the one that came
after the winner's commit has the winner's transaction. -/
theorem race_returned : ∃ w ws, (@ReachableFrom plainRuntime .empty w
    ∧ ⟨5, .withdraw 31 12 ⟨60, "INR", by decide, by decide⟩ (some "k"), ws⟩ ∈ w.store.commits)
    ∧ ∃ txn ∈ w.store.db.transactions.rows, (∃ t₀, .insertTransaction t₀ ∈ ws ∧ t₀.id = txn.id)
      ∧ (∀ j r, j ≠ 5 →
        ended w j = some (.withdraw 31 12 ⟨60, "INR", by decide, by decide⟩ (some "k"), r) →
          ((∃ wallet, r = .ok (.moved txn wallet)) ↔ MetBound j "k" w.store))
      ∧ (ended w 6 = some (.withdraw 31 12 ⟨60, "INR", by decide, by decide⟩ (some "k"),
          .error (.insufficientFunds 31)) ∧ ¬MetBound 6 "k" w.store)
      ∧ ∃ wallet, ended w 7 = some (.withdraw 31 12 ⟨60, "INR", by decide, by decide⟩ (some "k"),
          .ok (.moved txn wallet)) ∧ MetBound 7 "k" w.store := by
  obtain ⟨w, hr, hw⟩ := exists_runPlain .empty raceAgain retried retried_answered
  obtain ⟨hends, hcommit, hmet⟩ : [ended w 6, ended w 7] = _ ∧ (raced w).2 = true
      ∧ metBound 7 "k" w.store = true :=
    ⟨congrArg Prod.fst hw, congrArg (fun p => p.2.1) hw, congrArg (fun p => p.2.2) hw⟩
  obtain ⟨hend₆, hends⟩ := List.cons_eq_cons.mp hends
  obtain ⟨hend₇, -⟩ := List.cons_eq_cons.mp hends
  have hmet := MetBound.of_metBound hmet
  obtain ⟨c, hc, hreq⟩ := List.any_eq_true.mp hcommit
  obtain ⟨sid, tag, ws⟩ := c
  cases of_decide_eq_true hreq
  obtain ⟨-, txn, htxn, hins, hall⟩ := @identical_request_iff plainRuntime w hr 5 _ "k" ws rfl hc
  refine ⟨w, ws, ⟨hr, hc⟩, txn, htxn, hins, hall, ⟨hend₆, fun h => ?_⟩, ?_⟩
  · obtain ⟨wallet, hr₆⟩ := (hall 6 _ (by decide) hend₆).mpr h
    exact absurd hr₆ (by simp)
  · obtain ⟨wallet, hr₇⟩ := (hall 7 _ (by decide) hend₇).mpr hmet
    exact ⟨wallet, hend₇.trans (by rw [hr₇]), hmet⟩

end WalletLedger
