import WalletLedger.Isolation.Alone
import WalletLedger.Proof.Ledger

/-!
# The serial execution

A history of money movements can be replayed one request after another: whatever
a request has committed in the interleaved run, its program commits again when it
runs alone, in commit order, drawing the same ids and timestamps. Only the
identity counter of the legs may differ, since requests that failed have drawn
from it as well.

The work is to run each program through with nobody else around. Everything it
checks on the way follows from the movement being possible on the database it
finds, which is what the history says about every commit.
-/

namespace WalletLedger

open Isolation Prog

/-- It is the turn of session `i`: it alone has a transaction open, on `db`, with `ws`
buffered, and the next leg will be number `n`. -/
structure Turn (i : Sid) (db : Db) (ws : List Write) (n : Nat) (s : LedgerStore) : Prop where
  solo : Solo i ws s
  db : s.db = db
  seq : s.aux.seq = n

section statements

variable {i : Sid} {t : Request} {db : Db} {ws : List Write} {n : Nat} {s : LedgerStore}
  {q : Stmt} (inp : Inp)

theorem Turn.query {e : Effect Write Res Outside Exn q.Ans} {a : q.Ans} (h : Turn i db ws n s)
    (he : run q inp i (db.applyAll ws) s.aux = some e) (hc : e.ctl = .stay) (ha : e.ans = .ok a) :
    ∃ s', Alone engine i t (query q) s (.ok a) s' ∧ Turn i db (ws ++ e.writes) e.aux.seq s' := by
  have hrun : engine.run q inp i (engine.applyAll s.db ws) s.aux = some e := by
    rw [h.db]; exact he
  obtain ⟨s', hx, hsolo, hdb, haux⟩ := h.solo.stay (t := t) hrun hc
  rw [ha] at hx
  exact ⟨s', .perform hx, hsolo, hdb.trans h.db, by rw [haux]⟩

/-- A change of rows that nothing speaks against. -/
theorem Turn.writes {locks : List Res} {w : Write} {a : q.Ans} {o' : Outside}
    {check clash : Option DbError} (h : Turn i db ws n s)
    (he : run q inp i (db.applyAll ws) s.aux
      = some (WalletLedger.writes inp s.aux check locks clash w a o'))
    (hf : inp.fault = none) (hc : check = none) (hcl : clash = none) :
    ∃ s', Alone engine i t (WalletLedger.query q) s (.ok a) s'
      ∧ Turn i db (ws ++ [w]) o'.seq s' := by
  have heff : WalletLedger.writes inp s.aux check locks clash w a o'
      = { locks := locks, writes := [w], ans := .ok a, aux := o' } := by
    unfold WalletLedger.writes
    rw [hf, hc, hcl]
  rw [heff] at he
  exact h.query inp he rfl rfl

/-- Reading a row that is there. -/
theorem Turn.refreshes {a : q.Ans} {x : Option q.Ans} (h : Turn i db ws n s)
    (he : run q inp i (db.applyAll ws) s.aux = some (WalletLedger.refreshes inp s.aux x))
    (hf : inp.fault = none) (hx : x = some a) :
    ∃ s', Alone engine i t (WalletLedger.query q) s (.ok a) s' ∧ Turn i db ws n s' := by
  have heff : WalletLedger.refreshes inp s.aux x = { ans := .ok a, aux := s.aux } := by
    unfold WalletLedger.refreshes
    rw [hf, hx]
  rw [heff] at he
  obtain ⟨s', hs', ht'⟩ := h.query (t := t) inp he rfl rfl
  rw [List.append_nil] at ht'
  exact ⟨s', hs', ht'.solo, ht'.db, ht'.seq.trans h.seq⟩

/-- A plain read. -/
theorem Turn.reads {a : q.Ans} (h : Turn i db ws n s)
    (he : run q inp i (db.applyAll ws) s.aux = some (WalletLedger.reads inp s.aux a))
    (hf : inp.fault = none) :
    ∃ s', Alone engine i t (WalletLedger.query q) s (.ok a) s' ∧ Turn i db ws n s' := by
  have heff : WalletLedger.reads inp s.aux a = { ans := .ok a, aux := s.aux } := by
    unfold WalletLedger.reads
    rw [hf]
  rw [heff] at he
  obtain ⟨s', hs', ht'⟩ := h.query (t := t) inp he rfl rfl
  rw [List.append_nil] at ht'
  exact ⟨s', hs', ht'.solo, ht'.db, ht'.seq.trans h.seq⟩

theorem alone_raiseIf {β : Type} {c : Prop} [Decidable c] {e : Exn} {f : Unit → Tx β}
    {r : Except Exn β} {s' : LedgerStore} (hc : ¬c) (h : Alone engine i t (f ()) s r s') :
    Alone engine i t (raiseIf c e >>= f) s r s' := by
  unfold raiseIf
  rw [if_neg hc]
  exact h

end statements

/-! ## What the session sees of its own work -/

section view

variable {db : Db} {ws : List Write}

/-- A key none of the buffered writes touches is as free as before. -/
theorem Res.Absent.view {r : Res} (h : r.Absent db) (hw : ∀ w ∈ ws, r ∉ w.footprint) :
    r.Absent (db.applyAll ws) := h.same (same_applyAll (E := engine) hw)

theorem get_wallet_view {id : Uuid} {w : Wallet} (h : db.wallets.get id = some w) :
    ((db.applyAll ws).wallets.get id).isSome = true := by
  obtain ⟨w', hw', -⟩ := (Db.Grows.applyAll db ws).wallets id w h
  rw [hw']
  rfl

/-- The header stays once it is inserted. -/
theorem get_header_view (txn : Transaction) (h : db.transactions.get txn.id = none) :
    ((db.applyAll (.insertTransaction txn :: ws)).transactions.get txn.id).isSome = true := by
  have hself : (db.apply (.insertTransaction txn)).transactions.get txn.id = some txn :=
    Table.get_insert_self h
  obtain ⟨t', ht', -⟩ := (Db.Grows.applyAll (db.apply (.insertTransaction txn)) ws).transactions
    txn.id txn hself
  rw [Db.applyAll_cons, ht']
  rfl

end view

/-! ## The pieces of a movement, alone -/

section pieces

variable {i : Sid} {t : Request} {db : Db} {ws : List Write} {n : Nat} {s : LedgerStore}

theorem alone_create (type : TransactionType) {currency : String} {key : Option String} {id : Uuid}
    (h : Turn i db [] n s) (hcur : currency.length ≤ 3) (hlen : ∀ k ∈ key, k.length ≤ 255)
    (hid : db.transactions.get id = none) (hkey : ∀ k ∈ key, db.transactionByKey k = none) :
    ∃ s', Alone engine i t (TransactionRepository.create type currency key) s
        (.ok ⟨id, type, .pending, currency, key⟩) s'
      ∧ Turn i db [.insertTransaction ⟨id, type, .pending, currency, key⟩] n s' := by
  have hcheck : checkTransaction ⟨id, type, .pending, currency, key⟩ = none := by
    have hl : (decide (∀ k ∈ key, k.length ≤ 255)) = true := decide_eq_true hlen
    simp only [checkTransaction, firstError, hcur, decide_true, if_true, hl]
  have hfree : ((db.transactions.get id).isSome
      || key.toList.any (fun k => (db.transactionByKey k).isSome)) = false := by
    rw [hid]
    simp only [Option.isSome_none, Bool.false_or, List.any_eq_false]
    intro k hk
    rw [hkey k (by simpa using hk)]
    simp
  obtain ⟨s₁, h₁, ht₁⟩ := h.writes (t := t) (q := .insertTransaction type .pending currency key)
    { uuid := id } rfl rfl hcheck (by rw [Db.applyAll_nil, hfree]; rfl)
  have hrow : (db.applyAll [.insertTransaction ⟨id, type, .pending, currency,
    key⟩]).transactions.get id
      = some ⟨id, type, .pending, currency, key⟩ :=
    Table.get_insert_self (a := (⟨id, type, .pending, currency, key⟩ : Transaction)) hid
  have hseq : s.aux.seq = n := h.seq
  rw [List.nil_append, hseq] at ht₁
  obtain ⟨s₂, h₂, ht₂⟩ := ht₁.refreshes (t := t) (q := .refreshTransaction id) {} rfl rfl hrow
  exact ⟨s₂, h₁.bind h₂, ht₂⟩

theorem checkEntry_eq_none {e : LedgerEntry} (hamount : fitsBigint e.amount = true)
    (hcur : e.currency.length ≤ 3) (hpos : 0 < e.amount) {side : Side}
    (hw : e.walletId = side.walletId) (ha : e.systemAccount = side.systemAccount)
    (htxn : (db.transactions.get e.transactionId).isSome = true)
    (hwal : ∀ id ∈ e.walletId, (db.wallets.get id).isSome = true) : checkEntry db e = none := by
  have hwal' : decide (∀ id ∈ e.walletId, (db.wallets.get id).isSome = true) = true :=
    decide_eq_true hwal
  unfold checkEntry
  rw [hwal', htxn, hamount]
  simp only [firstError, hcur, hpos, decide_true, if_true]
  rw [hw, ha]
  cases side with
  | wallet w => rfl
  | funding => decide

/-- The rows of the wallets of a leg are in the session's view. -/
theorem leg_wallets {side : Side} (h : ∀ w ∈ side.wallets, db.wallets.get w.id = some w) :
    ∀ id ∈ side.walletId, ((db.applyAll ws).wallets.get id).isSome = true := by
  intro id hid
  cases side with
  | funding => exact absurd hid (by simp [Side.walletId])
  | wallet w =>
      have he : w.id = id := by simpa [Side.walletId] using hid
      rw [← he]
      exact get_wallet_view (h w (by simp [Side.wallets]))

/-- One leg. -/
theorem alone_bookLeg (mv : Movement) (txn : Transaction) (leg : EntryType × Side) (now : Time)
    {id : Uuid} (h : Turn i db ws n s) (hf : mv.Fits) (hpos : 0 < mv.amount)
    (htxn : ((db.applyAll ws).transactions.get txn.id).isSome = true)
    (hwal : ∀ w ∈ leg.2.wallets, db.wallets.get w.id = some w)
    (hid : (Res.entry id).Absent (db.applyAll ws)) :
    ∃ s', Alone engine i t (bookLeg mv txn leg) s
        (.ok ⟨id, n, txn.id, leg.1, mv.amount, mv.currency, leg.2.walletId,
          leg.2.systemAccount, now⟩) s'
      ∧ Turn i db (ws ++ [.insertEntry ⟨id, n, txn.id, leg.1, mv.amount, mv.currency,
          leg.2.walletId, leg.2.systemAccount, now⟩]) (n + 1) s' := by
  obtain ⟨type, side⟩ := leg
  have hfree : ((db.applyAll ws).ledgerEntries.get id).isSome = false := by
    have hget : (db.applyAll ws).ledgerEntries.get id = none := hid
    rw [hget]; rfl
  have hcheck : checkEntry (db.applyAll ws) ⟨id, s.aux.seq, txn.id, type, mv.amount, mv.currency,
      side.walletId, side.systemAccount, now⟩ = none :=
    checkEntry_eq_none hf.amount hf.currency hpos rfl rfl htxn (leg_wallets hwal)
  obtain ⟨s', hs', ht'⟩ := h.writes (t := t)
    (q := .insertEntry txn.id type mv.amount mv.currency side.walletId side.systemAccount)
    { uuid := id, now := now } rfl rfl hcheck (by rw [hfree]; rfl)
  rw [h.seq] at hs' ht'
  exact ⟨s', hs', ht'⟩

theorem alone_flushWallets {dirty : List Wallet} (now : Uuid → Time) (h : Turn i db ws n s)
    (hcheck : ∀ w ∈ dirty, checkBalance w.availableBalance = none)
    (hwal : ∀ w ∈ dirty, (db.wallets.get w.id).isSome = true) :
    ∃ s', Alone engine i t (TransactionRepository.flushWallets dirty) s (.ok ()) s'
      ∧ Turn i db (ws ++ dirty.map (fun w => .setBalance w.id w.availableBalance
        (now w.id))) n s' := by
  induction dirty generalizing ws s with
  | nil => exact ⟨s, .ret _ _, by simpa using h⟩
  | cons w dirty ih =>
      obtain ⟨x, hx⟩ := Option.isSome_iff_exists.mp (hwal w (by simp))
      have hrow : ((db.applyAll ws).wallets.get w.id).isSome = true := get_wallet_view hx
      obtain ⟨s₁, h₁, ht₁⟩ := h.writes (t := t) (q := .updateBalance w.id w.availableBalance)
        { now := now w.id } rfl rfl (hcheck w (by simp)) (by rw [hrow]; rfl)
      rw [h.seq] at ht₁
      obtain ⟨s₂, h₂, ht₂⟩ := ih ht₁ (fun v hv => hcheck v (by simp [hv]))
        (fun v hv => hwal v (by simp [hv]))
      rw [List.append_assoc] at ht₂
      exact ⟨s₂, h₁.bind h₂, ht₂⟩

theorem alone_markCompleted {dirty : List Wallet} (txn : Transaction) (now : Uuid → Time)
    (h : Turn i db ws n s) (hcheck : ∀ w ∈ dirty, checkBalance w.availableBalance = none)
    (hwal : ∀ w ∈ dirty, (db.wallets.get w.id).isSome = true)
    (htxn : ((db.applyAll ws).transactions.get txn.id).isSome = true) :
    ∃ s', Alone engine i t (TransactionRepository.markCompleted dirty txn) s
        (.ok (txn.setStatus .completed)) s'
      ∧ Turn i db (ws ++ [.setStatus txn.id .completed]
        ++ (TransactionRepository.inKeyOrder dirty).map
          (fun w => .setBalance w.id w.availableBalance (now w.id))) n s' := by
  have hperm : (TransactionRepository.inKeyOrder dirty).Perm dirty :=
    List.perm_insertionSort _ dirty
  obtain ⟨s₁, h₁, ht₁⟩ := h.writes (t := t) (q := .updateStatus txn.id .completed) {}
    rfl rfl rfl (by rw [htxn]; rfl)
  rw [h.seq] at ht₁
  obtain ⟨s₂, h₂, ht₂⟩ := alone_flushWallets (t := t) now ht₁
    (fun w hw => hcheck w (hperm.mem_iff.mp hw)) (fun w hw => hwal w (hperm.mem_iff.mp hw))
  exact ⟨s₂, h₁.bind (h₂.bind (.ret _ _)), ht₂⟩

theorem alone_recordEvent (txn : Transaction) (amount : Int) (w : Uuid)
    (c : Option Uuid) {id : Uuid}
    (createdAt occurredAt : Time) (h : Turn i db ws n s)
    (hid : (Res.event id).Absent (db.applyAll ws)) :
    ∃ s', Alone engine i t (LedgerService.recordEvent txn amount w c) s (.ok ()) s'
      ∧ Turn i db (ws ++ [.insertEvent ⟨id, "transaction", txn.id, "transaction.completed",
          ⟨txn.id, txn.type.value, txn.status.value, txn.currency, amount, w, c, occurredAt⟩,
          createdAt, none⟩]) n s' := by
  have hfree : ((db.applyAll ws).outboxEvents.get id).isSome = false := by
    have hget : (db.applyAll ws).outboxEvents.get id = none := hid
    rw [hget]; rfl
  have hcheck : firstError [(decide ("transaction".length ≤ 50), .data),
      (decide ("transaction.completed".length ≤ 100), .data)] = none := by decide
  obtain ⟨s₁, h₁, ht₁⟩ := h.query (t := t) (q := .now) { now := occurredAt } rfl rfl rfl
  rw [List.append_nil] at ht₁
  obtain ⟨s₂, h₂, ht₂⟩ := ht₁.writes (t := t)
    (q := .insertEvent "transaction" txn.id "transaction.completed"
      ⟨txn.id, txn.type.value, txn.status.value, txn.currency, amount, w, c, occurredAt⟩)
    { uuid := id, now := createdAt } rfl rfl hcheck (by rw [hfree]; rfl)
  have hseq : s₁.aux.seq = n := ht₁.seq.trans h.seq
  rw [hseq] at ht₂
  exact ⟨s₂, h₁.bind (h₂.bind (.ret _ _)), ht₂⟩

end pieces

/-! ## The whole movement, alone -/

namespace Minted

/-- All that was drawn but the leg numbers. -/
def unnumbered (m : Minted) : Minted := { m with debitSeq := 0, creditSeq := 0 }

/-- Id and time of the leg that is inserted first. -/
def first (m : Minted) (type : TransactionType) : Uuid × Time :=
  match type with
  | .deposit => (m.credit, m.creditAt)
  | _ => (m.debit, m.debitAt)

/-- Id and time of the leg that is inserted second. -/
def second (m : Minted) (type : TransactionType) : Uuid × Time :=
  match type with
  | .deposit => (m.debit, m.debitAt)
  | _ => (m.credit, m.creditAt)

theorem unused_legs {m : Minted} {db : Db} (h : m.Unused db) (type : TransactionType) :
    db.ledgerEntries.get (m.first type).1 = none ∧ db.ledgerEntries.get (m.second type).1 = none
      ∧ (m.first type).1 ≠ (m.second type).1 := by
  cases type with
  | deposit => exact ⟨h.credit, h.debit, h.distinct.symm⟩
  | transfer => exact ⟨h.debit, h.credit, h.distinct⟩
  | withdrawal => exact ⟨h.debit, h.credit, h.distinct⟩

end Minted

theorem Movement.Ok.wallets {mv : Movement} {db : Db} (h : mv.Ok db) :
    ∀ w ∈ mv.wallets, db.wallets.get w.id = some w := by
  intro w hw
  rcases Movement.mem_wallets.mp hw with hs | ht
  · exact (h.source w hs).1
  · exact (h.target w ht).1

theorem Movement.Ok.dirty {mv : Movement} {db : Db} (h : mv.Ok db) :
    ∀ w ∈ mv.dirty, (db.wallets.get w.id).isSome = true := by
  intro w hw
  rcases Movement.mem_dirty.mp hw with ⟨v, hs, rfl⟩ | ⟨v, ht, rfl⟩
  · show (db.wallets.get v.id).isSome = true
    rw [(h.source v hs).1]
    rfl
  · show (db.wallets.get v.id).isSome = true
    rw [(h.target v ht).1]
    rfl

section whole

variable {i : Sid} {t : Request} {db : Db} {n : Nat} {s : LedgerStore} {mv : Movement} {m : Minted}

/-- **A possible movement goes through.** Run alone on a database that allows it, the
common tail of the money operations buffers the movement's write set. -/
theorem alone_book (h : Turn i db [] n s) (hok : mv.Ok db) (hu : m.Unused db) :
    ∃ m' s', m'.unnumbered = m.unnumbered ∧ Turn i db (mv.writes m') (n + 2) s'
      ∧ ∀ {β : Type} (k : Transaction → Tx β) r s'', Alone engine i t (k (mv.txn m')) s' r s'' →
        Alone engine i t (book mv k) s r s'' := by
  obtain ⟨hfree₁, hfree₂, hne⟩ := Minted.unused_legs hu mv.type
  have hfit := hok.fits
  let txn : Transaction := ⟨m.txn, mv.type, .pending, mv.currency, mv.key⟩
  let e₁ : LedgerEntry := ⟨(m.first mv.type).1, n, m.txn, mv.first.1, mv.amount, mv.currency,
    mv.first.2.walletId, mv.first.2.systemAccount, (m.first mv.type).2⟩
  let e₂ : LedgerEntry := ⟨(m.second mv.type).1, n + 1, m.txn, mv.second.1, mv.amount, mv.currency,
    mv.second.2.walletId, mv.second.2.systemAccount, (m.second mv.type).2⟩
  obtain ⟨s₁, h₁, ht₁⟩ := alone_create (t := t) mv.type h hfit.currency hfit.key hu.txn
    hok.key
  have hheader : ∀ ws, ((db.applyAll (.insertTransaction txn :: ws)).transactions.get m.txn).isSome
      = true := fun ws => get_header_view txn hu.txn
  have hwals := hok.wallets
  obtain ⟨hsub₁, hsub₂⟩ := mv.legs_wallets
  -- the first leg: its id is free, and inserting the header does not change that
  have habs₁ : (Res.entry (m.first mv.type).1).Absent (db.applyAll [.insertTransaction txn]) :=
    Res.Absent.view (r := .entry (m.first mv.type).1) hfree₁ (by simp [Write.footprint])
  obtain ⟨s₂, h₂, ht₂⟩ := alone_bookLeg (t := t) mv txn mv.first (m.first mv.type).2
    ht₁ hfit hok.amount_pos (hheader [])
    (fun w hw => hwals w (hsub₁ hw)) habs₁
  -- the second leg: its id is not the first one's
  have habs₂ : (Res.entry (m.second mv.type).1).Absent
      (db.applyAll [.insertTransaction txn, .insertEntry e₁]) :=
    Res.Absent.view (r := .entry (m.second mv.type).1) hfree₂
      (by simpa [Write.footprint, e₁] using hne.symm)
  obtain ⟨s₃, h₃, ht₃⟩ := alone_bookLeg (t := t) mv txn mv.second (m.second mv.type).2
    ht₂ hfit hok.amount_pos (hheader [.insertEntry e₁])
    (fun w hw => hwals w (hsub₂ hw)) habs₂
  obtain ⟨s₄, h₄, ht₄⟩ := alone_markCompleted (t := t) txn m.updatedAt ht₃
    hfit.balances hok.dirty (hheader [.insertEntry e₁, .insertEntry e₂])
  have habs₄ : (Res.event m.event).Absent (db.applyAll
      ([.insertTransaction txn] ++ [.insertEntry e₁] ++ [.insertEntry e₂]
        ++ [.setStatus txn.id .completed]
        ++ (TransactionRepository.inKeyOrder mv.dirty).map
          (fun w => .setBalance w.id w.availableBalance (m.updatedAt w.id)))) := by
    refine Res.Absent.view (r := .event m.event) hu.event ?_
    intro w hw hr
    simp only [List.mem_append, List.mem_singleton, List.mem_map] at hw
    rcases hw with (((rfl | rfl) | rfl) | rfl) | ⟨v, -, rfl⟩ <;> simp [Write.footprint] at hr
  obtain ⟨s₅, h₅, ht₅⟩ := alone_recordEvent (t := t) (txn.setStatus .completed) mv.amount
    mv.subject mv.counterparty m.eventAt m.occurredAt ht₄ habs₄
  let m' : Minted := .ofRows mv.type m.txn e₁ e₂ m.event m.eventAt m.occurredAt m.updatedAt
  have hm' : m'.unnumbered = m.unnumbered := by
    show (Minted.ofRows mv.type m.txn e₁ e₂ m.event m.eventAt m.occurredAt
      m.updatedAt).unnumbered = _
    simp only [e₁, e₂]
    cases mv.type <;> rfl
  have hw : mv.writes m' = _ := writes_ofRows mv txn e₁ e₂ rfl rfl rfl
  have htxn : mv.txn m' = txn.setStatus .completed := by
    simp only [Movement.txn, Movement.header, m', ofRows_txn, txn]
  refine ⟨m', s₅, hm', ?_, fun k r s'' hk => ?_⟩
  · rw [hw]; exact ht₅
  · rw [htxn] at hk
    exact h₁.bind (h₂.bind (h₃.bind (h₄.bind (h₅.bind hk))))

theorem Minted.Unused.renumber {m' : Minted} (h : m.Unused db) (he : m'.unnumbered = m.unnumbered) :
    m'.Unused db := by
  have htxn : m'.txn = m.txn := (Minted.mk.inj he).1
  have hdebit : m'.debit = m.debit := (Minted.mk.inj he).2.1
  have hcredit : m'.credit = m.credit := (Minted.mk.inj he).2.2.2.2.1
  have hevent : m'.event = m.event := (Minted.mk.inj he).2.2.2.2.2.2.2.1
  exact ⟨htxn ▸ h.txn, hdebit ▸ h.debit,
    hcredit ▸ h.credit, by rw [hdebit, hcredit]; exact h.distinct,
    hevent ▸ h.event⟩

theorem Turn.commit {ws : List Write} (h : Turn i db ws n s) :
    ∃ s', Alone engine i t (WalletLedger.query .commit) s (.ok ()) s'
      ∧ Turn i (db.applyAll ws) [] n s' := by
  have hrun : engine.run .commit {} i (engine.applyAll s.db ws) s.aux
      = some { ctl := .commit, ans := .ok (), aux := s.aux } := rfl
  obtain ⟨s', hx, hrest, hdb, haux⟩ := h.solo.commit (t := t) hrun rfl
  refine ⟨s', .perform hx, hrest.solo i, ?_, ?_⟩
  · rw [hdb, h.db]
  · rw [haux]; exact h.seq

/-- The commit and the two reads after it. -/
theorem alone_committed [Runtime] (h : Turn i db (mv.writes m) n s) (hmv : t.Moves mv)
    (hok : mv.Ok db) (hu : m.Unused db) :
    ∃ w s₁ s₂ s₃, Alone engine i t (query .commit) s (.ok ()) s₁
      ∧ Alone engine i t (query (.refreshWallet t.path)) s₁ (.ok w) s₂
      ∧ Alone engine i t (query (.refreshTransaction m.txn)) s₂ (.ok (mv.txn m)) s₃
      ∧ Turn i (db.applyAll (mv.writes m)) [] n s₃ := by
  have hp := Movement.posted hok.shaped hu
  have hrow : (db.applyAll (mv.writes m)).transactions.get m.txn = some (mv.txn m) :=
    Table.get_eq_some.mpr ⟨by rw [hp.transactions]; simp, rfl⟩
  obtain ⟨v, hv, hid, -⟩ := hmv.path
  have hgrow : db.Grows (db.applyAll (mv.writes m)) := .applyAll _ _
  obtain ⟨w, hw, -⟩ := hgrow.wallets v.id v (hok.wallets v hv)
  rw [hid] at hw
  obtain ⟨s₁, h₁, ht₁⟩ := h.commit (t := t)
  obtain ⟨s₂, h₂, ht₂⟩ := ht₁.refreshes (t := t) (q := .refreshWallet t.path) {} rfl rfl hw
  obtain ⟨s₃, h₃, ht₃⟩ := ht₂.refreshes (t := t) (q := .refreshTransaction m.txn) {} rfl rfl hrow
  exact ⟨w, s₁, s₂, s₃, h₁, h₂, h₃, ht₃⟩

/-- An unbound key is nothing to replay. -/
theorem alone_replay {key : Option String} (path : Uuid) (h : Turn i db [] n s)
    (hkey : ∀ k ∈ key, db.transactionByKey k = none) :
    ∃ s', Alone engine i t (LedgerService.replay key path) s (.ok none) s' ∧ Turn i db [] n s' := by
  unfold LedgerService.replay
  by_cases htruthy : LedgerService.truthy key = true
  · rw [if_pos htruthy]
    cases key with
    | none => exact absurd htruthy (by simp [LedgerService.truthy])
    | some k =>
        have hmiss : db.transactionByKey k = none := hkey k rfl
        obtain ⟨s', hs', ht'⟩ := h.reads (t := t) (q := .selectTransactionByKey k) {} rfl rfl
        rw [Db.applyAll_nil, hmiss] at hs'
        exact ⟨s', hs'.bind (.ret _ _), ht'⟩
  · rw [if_neg htruthy]
    exact ⟨s, .ret _ _, h⟩

theorem alone_getWithLock (id : Uuid) (h : Turn i db [] n s) :
    ∃ s', Alone engine i t (WalletRepository.getWithLock id) s (.ok (db.wallets.get id)) s'
      ∧ Turn i db [] n s' := by
  obtain ⟨s', hs', ht'⟩ := h.query (t := t) (q := .selectWalletForUpdate id) {} rfl rfl rfl
  exact ⟨s', hs', ht'.solo, ht'.db, ht'.seq.trans h.seq⟩

theorem alone_lockEach (ids : List Uuid) (h : Turn i db [] n s) :
    ∃ s', Alone engine i t (WalletRepository.lockEach ids) s
        (.ok (ids.map (fun id => (id, db.wallets.get id)))) s' ∧ Turn i db [] n s' := by
  induction ids generalizing s with
  | nil => exact ⟨s, .ret _ _, h⟩
  | cons id ids ih =>
      obtain ⟨s₁, h₁, ht₁⟩ := alone_getWithLock (t := t) id h
      obtain ⟨s₂, h₂, ht₂⟩ := ih ht₁
      exact ⟨s₂, h₁.bind (h₂.bind (.ret _ _)), ht₂⟩

/-- Looking an id up among the locked rows finds the row. -/
theorem lookup_locked (ids : List Uuid) {id : Uuid} (h : id ∈ ids) :
    (((WalletRepository.sortedSet ids).map (fun id => (id, db.wallets.get id))).lookup id).join
      = db.wallets.get id := by
  have hmem : id ∈ WalletRepository.sortedSet ids := by
    unfold WalletRepository.sortedSet
    rw [List.mem_insertionSort, List.mem_dedup]
    exact h
  rw [List.lookup_graph db.wallets.get hmem]
  rfl

end whole

/-! ## The operations, alone -/

section operations

variable [Runtime] {i : Sid} {db : Db} {n : Nat} {s : LedgerStore} {mv : Movement} {m : Minted}

/-- What an operation run alone leaves: the movement, committed under new leg numbers. -/
def Repeated (i : Sid) (t : Request) (db : Db) (mv : Movement) (m : Minted)
    (p : Tx (Transaction × Option Wallet)) (s : LedgerStore) : Prop :=
  ∃ a m' n' s', m'.unnumbered = m.unnumbered ∧ Alone engine i t p s (.ok a) s'
    ∧ Turn i (db.applyAll (mv.writes m')) [] n' s'

theorem alone_commitKeyed {t : Request} {m' : Minted} (h : Turn i db (mv.writes m') n s)
    (hm : m'.unnumbered = m.unnumbered) (hmv : t.Moves mv) (hok : mv.Ok db) (hu : m.Unused db) :
    Repeated i t db mv m (LedgerService.commitKeyed (mv.txn m') t.key t.path) s := by
  obtain ⟨w, s₁, s₂, s₃, h₁, h₂, h₃, ht⟩ := alone_committed h hmv hok (hu.renumber hm)
  unfold LedgerService.commitKeyed
  rw [attempt_bind]
  exact ⟨_, m', n, s₃, hm, h₁.handle (h₂.bind (h₃.bind (.ret _ _))), ht⟩

theorem alone_deposit {w u : Uuid} {data : DepositRequest} (h : Turn i db [] n s)
    (hmv : (Request.deposit w u data).Moves mv) (hok : mv.Ok db) (hu : m.Unused db) :
    Repeated i (.deposit w u data) db mv m (LedgerService.deposit w u data) s := by
  obtain ⟨x, rfl, hx, hc, hshape⟩ := id hmv
  have hrow : db.wallets.get x.id = some x := (hok.target x (by rw [hshape])).1
  rw [deposit_eq]
  obtain ⟨s₁, h₁, ht₁⟩ := alone_getWithLock (t := .deposit x.id u data) x.id h
  rw [hrow] at h₁
  obtain ⟨m', s₂, hm, ht₂, hbook⟩ := alone_book (t := .deposit x.id u data) ht₁ hok hu
  obtain ⟨w', s₃, s₄, s₅, h₃, h₄, h₅, ht₅⟩ := alone_committed ht₂ hmv hok (hu.renumber hm)
  refine ⟨(mv.txn m', some w'), m', n + 2, s₅, hm, h₁.bind ?_, ht₅⟩
  subst hshape
  refine alone_raiseIf (not_not.mpr hx) (alone_raiseIf (not_not.mpr hc) (hbook _ _ _ ?_))
  exact h₃.bind (h₄.bind (h₅.bind (.ret _ _)))

theorem alone_withdraw {w u : Uuid} {data : WithdrawalRequest} {key : Option String}
    (h : Turn i db [] n s) (hmv : (Request.withdraw w u data key).Moves mv) (hok : mv.Ok db)
    (hu : m.Unused db) :
    Repeated i (.withdraw w u data key) db mv m (LedgerService.withdraw w u data key) s := by
  obtain ⟨x, hid, hx, hc, rfl⟩ := id hmv
  obtain ⟨hget, -, hb⟩ := hok.source x rfl
  have hrow : db.wallets.get w = some x := hid ▸ hget
  rw [withdraw_eq]
  obtain ⟨s₁, h₁, ht₁⟩ := alone_replay (t := .withdraw w u data key) w h hok.key
  obtain ⟨s₂, h₂, ht₂⟩ := alone_getWithLock (t := .withdraw w u data key) w ht₁
  rw [hrow] at h₂
  obtain ⟨m', s₃, hm, ht₃, hbook⟩ := alone_book (t := .withdraw w u data key) ht₂ hok hu
  obtain ⟨a, m'', n', s₄, hm', h₄, ht₄⟩ := alone_commitKeyed ht₃ hm hmv hok hu
  refine ⟨a, m'', n', s₄, hm', h₁.bind (h₂.bind ?_), ht₄⟩
  refine alone_raiseIf (not_not.mpr hx) (alone_raiseIf (not_not.mpr hc) ?_)
  exact alone_raiseIf (not_lt.mpr hb) (hbook _ _ _ h₄)

theorem alone_transfer {w u : Uuid} {data : TransferRequest} {key : Option String}
    (h : Turn i db [] n s) (hmv : (Request.transfer w u data key).Moves mv) (hok : mv.Ok db)
    (hu : m.Unused db) :
    Repeated i (.transfer w u data key) db mv m (LedgerService.transfer w u data key) s := by
  obtain ⟨x, y, hid, hx, hc, hid', hc', hne, rfl⟩ := id hmv
  obtain ⟨hget, -, hb⟩ := hok.source x rfl
  obtain ⟨hget', -⟩ := hok.target y rfl
  have hsender : db.wallets.get w = some x := hid ▸ hget
  have hrecipient : db.wallets.get data.recipientWalletId = some y := hid' ▸ hget'
  rw [transfer_eq]
  obtain ⟨s₁, h₁, ht₁⟩ := alone_replay (t := .transfer w u data key) w h hok.key
  obtain ⟨s₂, h₂, ht₂⟩ := alone_lockEach (t := .transfer w u data key)
    (WalletRepository.sortedSet [w, data.recipientWalletId]) ht₁
  obtain ⟨m', s₃, hm, ht₃, hbook⟩ := alone_book (t := .transfer w u data key) ht₂ hok hu
  obtain ⟨a, m'', n', s₄, hm', h₄, ht₄⟩ := alone_commitKeyed ht₃ hm hmv hok hu
  refine ⟨a, m'', n', s₄, hm', alone_raiseIf hne (h₁.bind (h₂.bind ?_)), ht₄⟩
  rw [lookup_locked [w, data.recipientWalletId] (by simp), hsender,
    lookup_locked [w, data.recipientWalletId] (by simp), hrecipient]
  refine alone_raiseIf (not_not.mpr hx) (alone_raiseIf (not_not.mpr hc) ?_)
  exact alone_raiseIf (not_not.mpr hc') (alone_raiseIf (not_lt.mpr hb) (hbook _ _ _ h₄))

omit [Runtime] in
/-- A money operation and the invalidation after it. -/
theorem alone_invalidating {t : Request} {p : Tx (Transaction × Option Wallet)} (ids : List Uuid)
    (hids : ids ≠ []) (h : Repeated i t db mv m p s) :
    Repeated i t db mv m (do let r ← p; BalanceCache.invalidate ids; pure r) s := by
  obtain ⟨a, m', n', s₁, hm, h₁, ht₁⟩ := h
  obtain ⟨s₂, h₂, ht₂⟩ := ht₁.query (t := t) (q := .cacheDelete ids) {} rfl rfl rfl
  have hinv : Alone engine i t (BalanceCache.invalidate ids) s₁ (.ok ()) s₂ := by
    unfold BalanceCache.invalidate
    rw [if_neg hids, attempt_bind]
    exact h₂.handle (.ret _ _)
  exact ⟨a, m', _, s₂, hm, h₁.bind (hinv.bind (.ret _ _)), ht₂⟩

omit [Runtime] in
/-- A money operation under `get_db`. -/
theorem alone_withSession {t : Request} {p : Tx (Transaction × Option Wallet)}
    (h : Repeated i t db mv m p s) :
    ∃ a s' m', Alone engine i t (withSession (Reply.ofMoved <$> p)) s (.ok a) s' ∧ AtRest s'
      ∧ m'.unnumbered = m.unnumbered ∧ s'.db = db.applyAll (mv.writes m') := by
  obtain ⟨a, m', n', s₁, hm, h₁, ht₁⟩ := h
  have hrun : engine.run .close {} i (engine.applyAll s₁.db []) s₁.aux
      = some { ctl := .abort, ans := .ok (), aux := s₁.aux } := rfl
  obtain ⟨s₂, hx, hrest, hdb, -⟩ := ht₁.solo.abort (t := t) hrun rfl
  have h₂ : Alone engine i t (query .close) s₁ (.ok ()) s₂ := .perform hx
  exact ⟨_, s₂, m', h₁.map.handle (h₂.bind (.ret _ _)), hrest, hm, hdb.trans ht₁.db⟩

/-- **A legal movement can be made again**, by its own request running alone. -/
theorem alone_request {t : Request} (h : AtRest s) (hmv : t.Moves mv) (hok : mv.Ok s.db)
    (hu : m.Unused s.db) :
    ∃ a s' m', Alone engine i t t.program s (.ok a) s' ∧ AtRest s'
      ∧ m'.unnumbered = m.unnumbered ∧ s'.db = s.db.applyAll (mv.writes m') := by
  have hturn : Turn i s.db [] s.aux.seq s := ⟨h.solo i, rfl, rfl⟩
  cases t with
  | deposit w u data =>
      exact alone_withSession (alone_invalidating _ (by simp) (alone_deposit hturn hmv hok hu))
  | transfer w u data key =>
      exact alone_withSession (alone_invalidating _ (by simp) (alone_transfer hturn hmv hok hu))
  | withdraw w u data key =>
      exact alone_withSession (alone_invalidating _ (by simp) (alone_withdraw hturn hmv hok hu))
  | _ => exact absurd hmv (by simp [Request.Moves])

end operations

/-! ## Databases that differ in leg numbers only -/

/-- A leg but for its number. -/
def LedgerEntry.unnumbered (e : LedgerEntry) : LedgerEntry := { e with seq := 0 }

structure SameButSeq (db db' : Db) : Prop where
  users : db'.users = db.users
  wallets : db'.wallets = db.wallets
  transactions : db'.transactions = db.transactions
  entries : db'.ledgerEntries.rows.map LedgerEntry.unnumbered
    = db.ledgerEntries.rows.map LedgerEntry.unnumbered
  events : db'.outboxEvents = db.outboxEvents
  processed : db'.processedEvents = db.processedEvents
  stats : db'.transactionStats = db.transactionStats

namespace SameButSeq

variable {db db' : Db} {mv : Movement} {m m' : Minted}

theorem ok (h : SameButSeq db db') (hok : mv.Ok db) : mv.Ok db' where
  amount_pos := hok.amount_pos
  fits := hok.fits
  shaped := hok.shaped
  source := by rw [h.wallets]; exact hok.source
  target := by rw [h.wallets]; exact hok.target
  key := by
    intro k hk
    unfold Db.transactionByKey
    rw [h.transactions]
    exact hok.key k hk

theorem get_entry (h : SameButSeq db db') {id : Uuid} (hid : db.ledgerEntries.get id = none) :
    db'.ledgerEntries.get id = none := by
  rw [Table.get_eq_none] at hid ⊢
  intro e he heq
  have hmem : e.unnumbered ∈ db.ledgerEntries.rows.map LedgerEntry.unnumbered := by
    rw [← h.entries]
    exact List.mem_map_of_mem he
  obtain ⟨e₀, he₀, hu⟩ := List.mem_map.mp hmem
  have hsame : e₀.id = e.id := (LedgerEntry.mk.inj hu).1
  exact hid e₀ he₀ (hsame.trans heq)

theorem unused (h : SameButSeq db db') (hu : m.Unused db) : m.Unused db' where
  txn := by rw [h.transactions]; exact hu.txn
  debit := h.get_entry hu.debit
  credit := h.get_entry hu.credit
  distinct := hu.distinct
  event := by rw [h.events]; exact hu.event

theorem legs_unnumbered (mv : Movement) (m : Minted) :
    (mv.legs m).map LedgerEntry.unnumbered = mv.legs m.unnumbered := by
  unfold Movement.legs
  cases mv.type <;> rfl

theorem post_unnumbered (side : Side) (delta : Int) (m : Minted)
    (t : Table Wallet Uuid Wallet.id) : side.post delta m t = side.post delta m.unnumbered t := by
  cases side <;> rfl

/-- The same movement under other leg numbers. -/
theorem movement (h : SameButSeq db db') (hs : mv.Shaped) (hu : m.Unused db) (hu' : m'.Unused db')
    (hm : m'.unnumbered = m.unnumbered) :
    SameButSeq (db.applyAll (mv.writes m)) (db'.applyAll (mv.writes m')) := by
  have hp := Movement.posted hs hu
  have hp' := Movement.posted hs hu'
  have htxn : mv.txn m' = mv.txn m := by
    show mv.txn m'.unnumbered = mv.txn m.unnumbered
    rw [hm]
  have hevent : mv.event m' = mv.event m := by
    show mv.event m'.unnumbered = mv.event m.unnumbered
    rw [hm]
  refine ⟨?_, ?_, ?_, ?_, ?_, ?_, ?_⟩
  · rw [hp'.users, hp.users, h.users]
  · rw [hp'.wallets, hp.wallets, h.wallets, post_unnumbered _ _ m', post_unnumbered _ _ m',
      post_unnumbered _ _ m, post_unnumbered _ _ m, hm]
  · refine Table.ext ?_
    rw [hp'.transactions, hp.transactions, h.transactions, htxn]
  · rw [hp'.entries, hp.entries, List.map_append, List.map_append, h.entries, legs_unnumbered,
      legs_unnumbered, hm]
  · refine Table.ext ?_
    rw [hp'.events, hp.events, h.events, hevent]
  · rw [hp'.processed, hp.processed, h.processed]
  · rw [hp'.stats, hp.stats, h.stats]

end SameButSeq

/-! ## The serial run -/

variable [Runtime]

/-- The requests of a list run one after another, each by itself and each successfully. -/
inductive Serial : LedgerStore → List (Sid × Request) → LedgerStore → Prop where
  | nil (s : LedgerStore) : Serial s [] s
  | cons {i : Sid} {t : Request} {a : Reply} {s s' s'' : LedgerStore}
      {rest : List (Sid × Request)} :
      Alone engine i t t.program s (.ok a) s' → Serial s' rest s'' → Serial s ((i, t) :: rest) s''

/-- A history of movements can be run serially from any database that agrees with its start. -/
theorem Chain.serial {db db' : Db} {cs : List LedgerCommit} (h : Chain db cs db')
    (hmoney : ∀ c ∈ cs, c.tag.movesMoney = true) {s : LedgerStore} (hrest : AtRest s)
    (hs : SameButSeq db s.db) : ∃ s', Serial s (cs.map requestOf) s' ∧ SameButSeq db' s'.db := by
  induction h generalizing s with
  | nil db => exact ⟨s, .nil s, hs⟩
  | cons hl _ ih =>
      rename_i db db' c cs _
      obtain ⟨mv, m, hmv, hok, hu, hws⟩ := hl.movement (hmoney c (by simp))
      obtain ⟨a, s₁, m', halone, hrest₁, hm, hdb⟩ :=
        alone_request (i := c.sid) hrest hmv (hs.ok hok) (hs.unused hu)
      have hsame : SameButSeq (db.applyAll c.writes) s₁.db := by
        rw [hws, hdb]
        exact hs.movement hok.shaped hu ((hs.unused hu).renumber hm) hm
      obtain ⟨s₂, hserial, hend⟩ := ih (fun d hd => hmoney d (by simp [hd])) hrest₁ hsame
      exact ⟨s₂, .cons halone hserial, hend⟩

/-- **Concurrent money operations are serializable in commit order.** Whatever requests ran
and however they interleaved, those that committed can be run one after another in the
order of their commits; each succeeds again, and the result is the same but for the leg
numbers. -/
theorem reachable_serializable (db₀ : Db) (w : LedgerWorld) (h : ReachableFrom db₀ w)
    (hmoney : ∀ c ∈ w.store.commits, c.tag.movesMoney = true) :
    (w.store.commits.map Commit.sid).Nodup
      ∧ ∃ s, Serial (LedgerStore.start db₀) (w.store.commits.map requestOf) s
        ∧ SameButSeq w.store.db s.db := by
  have hset := reachable_settled h
  constructor
  · refine List.pairwise_map.mpr (hset.once.imp_of_mem ?_)
    intro a b _ hb hab he
    have := hmoney b hb
    rw [hab he] at this
    exact absurd this (by simp)
  · have hrest : AtRest (LedgerStore.start db₀) := ⟨fun _ => rfl, rfl⟩
    have hsame : SameButSeq db₀ (LedgerStore.start db₀).db := ⟨rfl, rfl, rfl, rfl, rfl, rfl, rfl⟩
    exact hset.history.serial hmoney hrest hsame

/-- Ann holds 100, Bob nothing. -/
def funded : Db :=
  Db.empty.applyAll [.insertUser ⟨1, "Ann", "ann@example.com", ""⟩,
    .insertWallet ⟨2, 1, "INR", 100, 0, 0, 0⟩, .insertUser ⟨3, "Bob", "bob@example.com", ""⟩,
    .insertWallet ⟨4, 3, "INR", 0, 0, 0, 0⟩]

/-- A transfer, a withdrawal that comes too late for it, and a deposit in between. -/
def rivals : List LedgerAction :=
  [.spawn (.transfer 2 1 (transferOf 4 60) (some "k")),
    .spawn (.withdraw 2 1 (withdrawalOf 50) (some "l")),
    .spawn (.deposit 4 3 (depositOf 5))]
    ++ advance 1 1 10 ++ advance 0 2 20 ++ advance 2 14 30 ++ advance 0 15 50 ++ advance 1 2 70

omit [Runtime] in
theorem rivals_serializable : ∃ w, (@ReachableFrom plainRuntime funded w
    ∧ w.store.db.wallets.rows.map Wallet.availableBalance = [40, 65]
    ∧ w.store.commits.map Commit.sid = [2, 0])
    ∧ ∃ s, @Serial plainRuntime (LedgerStore.start funded) (w.store.commits.map requestOf) s
      ∧ SameButSeq w.store.db s.db := by
  obtain ⟨w, hr, hw⟩ := exists_runPlain funded rivals (fun w =>
    (w.store.db.wallets.rows.map Wallet.availableBalance, w.store.commits.map Commit.sid,
      w.store.commits.all (fun c => c.tag.movesMoney)))
    (v := ([40, 65], [2, 0], true)) (by decide +kernel)
  have hbal := congrArg Prod.fst hw
  have hsid := congrArg (fun p => p.2.1) hw
  have hmoney := congrArg (fun p => p.2.2) hw
  have hall : ∀ c ∈ w.store.commits, c.tag.movesMoney = true := List.all_eq_true.mp hmoney
  exact ⟨w, ⟨hr, hbal, hsid⟩, (@reachable_serializable plainRuntime funded w hr hall).2⟩

end WalletLedger
