import WalletLedger.App.Responses
import WalletLedger.Proof.Admission
import WalletLedger.Proof.Serial
import WalletLedger.Proof.Trails

/-!
# How an undisturbed operation ends

A money operation during which nobody else commits meets one state until its own commit
(`Met`), and that state decides how it ends:

- it is refused by one of its checks, or answered by a replay, and has stored no integer;
- the INSERT of its header fails, since the key cannot be stored;
- one of its integers does not fit, and the statement that brings it fails;
- it commits.

`Ending` says which, as a fact about the statements of the operation, and in which of these
ways it has to end unless the environment interferes (`Favourable`).
-/

namespace WalletLedger

open Isolation Prog

/-! ## The state it meets -/

/-- The statements of a list have met `db`, up to the first commit. -/
def Met (db : Db) : List LedgerObs → Prop
  | [] => True
  | o :: os => o.db = db ∧ (o.stmt = .commit ∨ Met db os)

theorem Met.append {db : Db} {os os' : List LedgerObs} (h : Met db (os ++ os'))
    (hq : ∀ o ∈ os, o.stmt ≠ .commit) : (∀ o ∈ os, o.db = db) ∧ Met db os' := by
  induction os with
  | nil => exact ⟨by simp, h⟩
  | cons o os ih =>
      obtain ⟨ho, hrest⟩ := h
      have hmet := hrest.resolve_left (hq o (by simp))
      obtain ⟨hall, hmet'⟩ := ih hmet (fun o' ho' => hq o' (by simp [ho']))
      refine ⟨fun o' ho' => ?_, hmet'⟩
      rcases List.mem_cons.mp ho' with rfl | ho'
      · exact ho
      · exact hall o' ho'

/-- What has not committed yet has met nothing else. -/
theorem Met.all {db : Db} {os : List LedgerObs} (h : Met db os) (hq : ∀ o ∈ os, o.stmt ≠ .commit) :
    ∀ o ∈ os, o.db = db := by
  have hnil : Met db (os ++ []) := by rwa [List.append_nil]
  exact (hnil.append hq).1

/-- It is enough to look at the statements before the first commit one by one. -/
theorem Met.of_splits {db : Db} {os : List LedgerObs}
    (h : ∀ pre o post, os = pre ++ o :: post → (∀ d ∈ pre, d.stmt ≠ .commit)
      → o.db = db) : Met db os := by
  induction os with
  | nil => trivial
  | cons o os ih =>
      refine ⟨h [] o os rfl (by simp), ?_⟩
      by_cases hc : o.stmt = .commit
      · exact .inl hc
      · refine .inr (ih (fun pre o' post hs hq => h (o :: pre) o' post (by rw [hs]; rfl) ?_))
        intro d hd
        rcases List.mem_cons.mp hd with rfl | hd
        · exact hc
        · exact hq d hd

theorem Met.left {db : Db} {os os' : List LedgerObs} (h : Met db (os ++ os')) : Met db os := by
  induction os with
  | nil => trivial
  | cons o os ih => exact ⟨h.1, h.2.imp id ih⟩

/-! ## What the environment does -/

/-- The INSERT of a leg. -/
def Stmt.isLeg : Stmt → Bool
  | .insertEntry _ _ _ _ _ _ => true
  | _ => false

/-- The id drawn for a row is not in its table. -/
def DrawsNew (o : LedgerObs) : Prop :=
  match o.stmt with
  | .insertTransaction _ _ _ _ => o.db.transactions.get o.inp.uuid = none
  | .insertEntry _ _ _ _ _ _ => o.db.ledgerEntries.get o.inp.uuid = none
  | .insertEvent _ _ _ _ => o.db.outboxEvents.get o.inp.uuid = none
  | _ => True

/-- The environment does not interfere with some statements. -/
structure Favourable (os : List LedgerObs) : Prop where
  /-- The server does not fail. -/
  answered : ∀ o ∈ os, o.inp.fault = none
  /-- The ids drawn are new. -/
  drawn : ∀ o ∈ os, DrawsNew o
  /-- No two legs get the same one. -/
  apart : os.Pairwise (fun o o' => o.stmt.isLeg = true → o'.stmt.isLeg = true
    → o.inp.uuid ≠ o'.inp.uuid)

theorem Favourable.sublist {os os' : List LedgerObs} (h : Favourable os') (hs : os.Sublist os') :
    Favourable os :=
  ⟨fun o ho => h.answered o (hs.subset ho), fun o ho => h.drawn o (hs.subset ho),
    h.apart.sublist hs⟩

theorem Favourable.left {os os' : List LedgerObs} (h : Favourable (os ++ os')) : Favourable os :=
  h.sublist (List.sublist_append_left _ _)

theorem Favourable.right {os os' : List LedgerObs} (h : Favourable (os ++ os')) : Favourable os' :=
  h.sublist (List.sublist_append_right _ _)

/-! ## The ways to end -/

section ending

variable [Runtime]

/-- The end of an operation that has buffered its movement: it commits, and answers with the rows it
reads back, if they are there. -/
def Completes (path id : Uuid) (os : List LedgerObs)
    (r : Except Exn (Transaction × Option Wallet)) :
    Prop :=
  ∃ d os', os = d :: os' ∧ d.stmt = .commit
    ∧ (Favourable os → (∀ o ∈ os', ¬(Res.wallet path).Absent o.db
      ∧ ¬(Res.transaction id).Absent o.db) →
      ∃ txn x, r = .ok (txn, some x))

/-- How an operation ends that has met `db`, by the statements it has executed. -/
inductive Ending (t : Request) (db : Db) (os : List LedgerObs) :
    Except Exn (Transaction × Option Wallet) → Prop where
  /-- A read has failed. -/
  | failed {r : Except Exn (Transaction × Option Wallet)} (spoiled : ¬Favourable os)
      (mute : ∀ o ∈ os, o.stmt.integers = []) : Ending t db os r
  /-- A check has failed, with an exception the route answers. -/
  | refused {e : Exn} (handled : t.respond (.error e) ≠ some .serverError)
      (rejects : ∀ mv, ¬t.Admits db mv) (kept : ¬t.Orphaned db)
      (mute : ∀ o ∈ os, o.stmt.integers = []) : Ending t db os (.error e)
  /-- The key was found. -/
  | replayed {k : String} {txn : Transaction} (key : t.key = some k) (ne : k ≠ "")
      (bound : db.transactionByKey k = some txn) (apart : t.isSelfTransfer = false)
      (mute : ∀ o ∈ os, o.stmt.integers = []) : Ending t db os (.ok (txn, db.wallets.get t.path))
  /-- The header was not accepted. -/
  | barred {mv : Movement} {e : DbError} (admits : t.Admits db mv)
      (unbound : ∀ k ∈ t.key, k ≠ "" → db.transactionByKey k = none)
      (refused : Favourable os → ¬db.Accepts t.key)
      (mute : ∀ o ∈ os, o.stmt.integers = []) : Ending t db os (.error (.db e))
  /-- A statement has failed after the header. -/
  | burst {mv : Movement} {e : DbError} (admits : t.Admits db mv) (accepts : db.Accepts t.key)
      (own : ∀ o ∈ os, o.stmt.integers ⊆ mv.integers)
      (breaks : Favourable os → ∃ o ∈ os, ¬o.stmt.InRange) : Ending t db os (.error (.db e))
  /-- The movement was buffered and its commit tried. -/
  | booked {mv : Movement} {os₁ os₂ : List LedgerObs} {ws : List Write} {id : Uuid}
      {r : Except Exn (Transaction × Option Wallet)} (admits : t.Admits db mv)
      (accepts : db.Accepts t.key) (own : ∀ o ∈ os, o.stmt.integers ⊆ mv.integers)
      (fits : ∀ n ∈ mv.integers, fitsBigint n = true) (split : os = os₁ ++ os₂)
      (buffered : engine.buffered [] os₁ = ws) (some : ws ≠ [])
      (lands : ∀ db : Db, ¬(Res.transaction id).Absent (db.applyAll ws))
      (completes : Completes t.path id os₂ r) : Ending t db os r

/-- Statements that store no integer may come before and after. -/
theorem Ending.extend {t : Request} {db : Db} {os : List LedgerObs}
    {r : Except Exn (Transaction × Option Wallet)} (h : Ending t db os r)
    (pre post : List LedgerObs)
    (hpre : engine.buffered [] pre = []) (hmute : ∀ o ∈ pre, o.stmt.integers = [])
    (hmute' : ∀ o ∈ post, o.stmt.integers = []) : Ending t db (pre ++ os ++ post) r := by
  have hmutes : (∀ o ∈ os, o.stmt.integers = []) → ∀ o ∈ pre ++ os ++ post,
      o.stmt.integers = [] := by
    intro hos o ho
    rcases List.mem_append.mp ho with ho | ho
    · rcases List.mem_append.mp ho with ho | ho
      · exact hmute o ho
      · exact hos o ho
    · exact hmute' o ho
  have howns : ∀ {mv : Movement}, (∀ o ∈ os, o.stmt.integers ⊆ mv.integers) →
      ∀ o ∈ pre ++ os ++ post, o.stmt.integers ⊆ mv.integers := by
    intro mv hos o ho
    rcases List.mem_append.mp ho with ho | ho
    · rcases List.mem_append.mp ho with ho | ho
      · rw [hmute o ho]
        exact List.nil_subset _
      · exact hos o ho
    · rw [hmute' o ho]
      exact List.nil_subset _
  have hfav : Favourable (pre ++ os ++ post) → Favourable os := fun hf => hf.left.right
  cases h with
  | failed spoiled mute => exact .failed (fun hf => spoiled (hfav hf)) (hmutes mute)
  | refused handled rejects kept mute => exact .refused handled rejects kept (hmutes mute)
  | replayed key ne bound apart mute => exact .replayed key ne bound apart (hmutes mute)
  | barred admits unbound refused mute =>
      exact .barred admits unbound (fun hf => refused (hfav hf)) (hmutes mute)
  | burst admits accepts own breaks =>
      refine .burst admits accepts (howns own) (fun hf => ?_)
      obtain ⟨o, ho, hout⟩ := breaks (hfav hf)
      exact ⟨o, by simp [ho], hout⟩
  | booked admits accepts own fits split buffered some lands completes =>
      rename_i mv os₁ os₂ ws id
      obtain ⟨d, os', rfl, hcommit, hback⟩ := completes
      have hsplit : pre ++ os ++ post = (pre ++ os₁) ++ (d :: os' ++ post) := by simp [split]
      refine .booked admits accepts (howns own) fits hsplit ?_ some lands
        ⟨d, os' ++ post, rfl, hcommit, fun hf hrows => hback hf.left
          (fun o ho => hrows o (by simp [ho]))⟩
      rw [Engine.buffered_append, hpre]
      exact buffered

end ending

/-! ## Its statements -/

section pieces

variable {i : Sid} {t : Request} {db : Db} {os : List LedgerObs}
    {ws ws' : List Write} {mv : Movement}
  {txn : Transaction}

/-- What the INSERT of a header needs. -/
theorem header_stored {type : TransactionType} {currency : String}
    {key : Option String} {id : Uuid} :
    (checkTransaction ⟨id, type, .pending, currency, key⟩ = none
      ∧ (if (db.transactions.get id).isSome || key.toList.any
        (fun k => (db.transactionByKey k).isSome)
          then some DbError.integrity else none) = none)
    ↔ currency.length ≤ 3 ∧ db.transactions.get id = none ∧ db.Accepts key := by
  rw [ite_eq_right_iff, checkTransaction, firstError_eq_none]
  simp only [List.forall_mem_cons, decide_eq_true_eq, Db.Accepts, reduceCtorEq, imp_false,
    Bool.not_eq_true, Bool.or_eq_false_iff, Option.isSome_eq_false_iff, Option.isNone_iff_eq_none,
    List.any_eq_false]
  constructor
  · rintro ⟨⟨hcur, hlen, -⟩, hid, hkey⟩
    exact ⟨hcur, hid, fun k hk => ⟨hlen k hk, by simpa using hkey k (by simpa using hk)⟩⟩
  · rintro ⟨hcur, hid, hacc⟩
    exact ⟨⟨hcur, fun k hk => (hacc k hk).1, by simp⟩, hid,
      fun k hk => by simp [(hacc k (by simpa using hk)).2]⟩

/-- The header is inserted and read back, or its INSERT fails. -/
theorem header_ended {type : TransactionType} {currency : String} {key : Option String}
    {r : Except Exn Transaction}
    (h : Trail engine i t (TransactionRepository.create type currency key) [] os (ofExcept r) ws')
    (hdb : ∀ o ∈ os, o.db = db) :
    (∃ id, r = .ok ⟨id, type, .pending, currency, key⟩ ∧ db.transactions.get id = none
        ∧ db.Accepts key ∧ ws' = [.insertTransaction ⟨id, type, .pending, currency, key⟩])
      ∨ (∃ e, r = .error (.db e)) ∧ (Favourable os → currency.length ≤ 3 → ¬db.Accepts key) := by
  have hq : ∀ inp i d o, run (.insertTransaction type .pending currency key) inp i d o
      = some (writes inp o (checkTransaction ⟨inp.uuid, type, .pending, currency, key⟩)
        (.transaction inp.uuid :: key.toList.map .idempotencyKey)
        (if (d.transactions.get inp.uuid).isSome || key.toList.any
          (fun k => (d.transactionByKey k).isSome)
          then some DbError.integrity else none)
        (.insertTransaction ⟨inp.uuid, type, .pending, currency, key⟩)
        ⟨inp.uuid, type, .pending, currency, key⟩ o) := fun _ _ _ _ => rfl
  -- an INSERT that has failed without a fault was not to be stored
  have hfail : ∀ {o : LedgerObs}, o ∈ os → o.stmt = .insertTransaction type .pending currency key →
      ¬(o.inp.fault = none ∧ checkTransaction ⟨o.inp.uuid, type, .pending, currency, key⟩ = none
        ∧ (if (o.db.transactions.get o.inp.uuid).isSome
              || key.toList.any (fun k => (o.db.transactionByKey k).isSome)
            then some DbError.integrity else none) = none) →
      Favourable os → currency.length ≤ 3 → ¬db.Accepts key := by
    intro o ho hstmt hno hf hcur hacc
    have hnew := hf.drawn o ho
    unfold DrawsNew at hnew
    rw [hstmt] at hnew
    refine hno ⟨hf.answered o ho, header_stored.mpr ⟨hcur, hnew, ?_⟩⟩
    rw [hdb o ho]
    exact hacc
  rcases h.bind_ended with ⟨e, h₁, rfl⟩ | ⟨x, os₁, os₂, ws₁, rfl, h₁, h₂⟩
  · obtain ⟨o, rfl, hstmt, ⟨-, -, -, hr, -⟩ | ⟨hno, he, -⟩⟩ := writes_ended hq h₁
    · exact absurd hr (by simp)
    · exact .inr ⟨he, hfail (by simp) hstmt hno⟩
  · obtain ⟨o, rfl, hstmt, ⟨-, hc, hcl, hr, rfl⟩ | ⟨-, ⟨e, he⟩, -⟩⟩ := writes_ended hq h₁
    · cases Except.ok.inj hr
      have ho : o.db = db := hdb o (by simp)
      obtain ⟨-, hid, hacc⟩ := header_stored.mp ⟨hc, hcl⟩
      rw [Db.applyAll_nil, ho] at hid hacc
      obtain ⟨o', rfl, -, hread⟩ :=
        refresh_ended (f := fun d => d.transactions.get o.inp.uuid) (fun _ _ _ _ => rfl) h₂
      -- the session reads its own row
      have hrow : (o'.db.applyAll
          ([] ++ [.insertTransaction ⟨o.inp.uuid, type, .pending, currency, key⟩])).transactions.get
            o.inp.uuid
            = some ⟨o.inp.uuid, type, .pending, currency, key⟩ := by
        rw [hdb o' (by simp)]
        exact Table.get_insert_self
          (a := (⟨o.inp.uuid, type, .pending, currency, key⟩ : Transaction)) hid
      rcases hread with ⟨-, a, ha, rfl, rfl⟩ | ⟨hno, he, -⟩
      · cases Option.some.inj (hrow.symm.trans ha)
        exact .inl ⟨o.inp.uuid, rfl, hid, hacc, rfl⟩
      · refine .inr ⟨he, fun hf _ _ => hno ⟨hf.answered o' (by simp), ?_⟩⟩
        exact Option.isSome_iff_exists.mpr ⟨_, hrow⟩
    · exact absurd he (by simp)

/-- A leg is inserted, or its amount does not fit. -/
theorem leg_ended {leg : EntryType × Side} {r : Except Exn LedgerEntry}
    (h : Trail engine i t (bookLeg mv txn leg) ws os (ofExcept r) ws') (hdb : ∀ o ∈ os, o.db = db)
    (hcur : mv.currency.length ≤ 3) (hpos : 0 < mv.amount)
    (htxn : ((db.applyAll ws).transactions.get txn.id).isSome = true)
    (hwal : ∀ w ∈ leg.2.wallets, db.wallets.get w.id = some w) :
    ∃ o : LedgerObs, os = [o] ∧ o.stmt.integers = [mv.amount] ∧ o.stmt.isLeg = true
      ∧ (DrawsNew o → db.ledgerEntries.get o.inp.uuid = none)
      ∧ ((∃ e, r = .ok e ∧ e.id = o.inp.uuid ∧ ws' = ws ++ [.insertEntry e]
          ∧ fitsBigint mv.amount = true)
        ∨ (∃ e, r = .error (.db e)) ∧ (o.inp.fault = none →
            (Res.entry o.inp.uuid).Absent (db.applyAll ws) → fitsBigint mv.amount = false)) := by
  obtain ⟨type, side⟩ := leg
  have hq : ∀ inp i d o, run (.insertEntry txn.id type mv.amount mv.currency side.walletId
      side.systemAccount) inp i d o
      = some (writes inp o (checkEntry d ⟨inp.uuid, o.seq, txn.id, type, mv.amount, mv.currency,
            side.walletId, side.systemAccount, inp.now⟩) [.entry inp.uuid]
          (if (d.ledgerEntries.get inp.uuid).isSome then some DbError.integrity else none)
          (.insertEntry ⟨inp.uuid, o.seq, txn.id, type, mv.amount, mv.currency, side.walletId,
            side.systemAccount, inp.now⟩)
          ⟨inp.uuid, o.seq, txn.id, type, mv.amount, mv.currency, side.walletId, side.systemAccount,
            inp.now⟩ { o with seq := o.seq + 1 }) := fun _ _ _ _ => rfl
  obtain ⟨o, rfl, hstmt, hend⟩ := writes_ended hq h
  have ho : o.db = db := hdb o (by simp)
  refine ⟨o, rfl, by rw [hstmt]; rfl, by rw [hstmt]; rfl, fun hnew => ?_, ?_⟩
  · unfold DrawsNew at hnew
    rw [hstmt] at hnew
    rw [← ho]
    exact hnew
  rw [ho] at hend
  rcases hend with ⟨-, hc, -, rfl, rfl⟩ | ⟨hno, he, -⟩
  · exact .inl ⟨_, rfl, rfl, rfl, checkEntry_amount hc⟩
  · refine .inr ⟨he, fun hf habs => ?_⟩
    by_contra hfit
    have hfit : fitsBigint mv.amount = true := by simpa using hfit
    have habs : (db.applyAll ws).ledgerEntries.get o.inp.uuid = none := habs
    refine hno ⟨hf, checkEntry_eq_none hfit hcur hpos rfl rfl htxn (leg_wallets hwal), ?_⟩
    rw [habs]
    rfl

end pieces

/-! ## After the header -/

/-- A program either returns, with `Q` of its value and of what it leaves in the buffer, or one of
the integers it stores does not fit. -/
def Proceeds {β : Type} (i : Sid) (t : Request) (db : Db) (ws : List Write) (p : Tx β)
    (Q : β → List Write → Prop) : Prop :=
  ∀ (os : List LedgerObs) (ws' : List Write) (r : Except Exn β),
    Trail engine i t p ws os (ofExcept r) ws' → (∀ o ∈ os, o.db = db) →
    (∃ a, r = .ok a ∧ Q a ws')
      ∨ (∃ e, r = .error (.db e)) ∧ (Favourable os → ∃ o ∈ os, ¬o.stmt.InRange)

section tail

variable {i : Sid} {t : Request} {db : Db} {ws : List Write} {mv : Movement} {txn : Transaction}
  {β γ : Type}

theorem Proceeds.ret {a : β} {Q : β → List Write → Prop} (h : Q a ws) :
    Proceeds i t db ws (Prog.ret a) Q := by
  intro os ws' r hr _
  obtain ⟨-, he, rfl⟩ := hr.ret_inv
  exact .inl ⟨a, ofExcept_inj he, h⟩

theorem Proceeds.bind {p : Tx β} {f : β → Tx γ} {Q : β → List Write → Prop}
    {R : γ → List Write → Prop} (hp : Proceeds i t db ws p Q)
    (hf : ∀ a ws', Q a ws' → Proceeds i t db ws' (f a) R) : Proceeds i t db ws (p >>= f) R := by
  intro os ws' r h hdb
  rcases h.bind_ended with ⟨e, h₁, rfl⟩ | ⟨a, os₁, os₂, ws₁, rfl, h₁, h₂⟩
  · rcases hp _ _ _ h₁ hdb with ⟨_, hr, -⟩ | ⟨⟨e', he⟩, hout⟩
    · exact absurd hr (by simp)
    · cases he
      exact .inr ⟨⟨e', rfl⟩, hout⟩
  · rcases hp _ _ _ h₁ (fun o ho => hdb o (by simp [ho])) with ⟨_, hr, hq⟩ | ⟨⟨e, he⟩, -⟩
    · cases hr
      rcases hf a ws₁ hq _ _ _ h₂ (fun o ho => hdb o (by simp [ho])) with hok | ⟨he, hout⟩
      · exact .inl hok
      · refine .inr ⟨he, fun hfav => ?_⟩
        obtain ⟨o, ho, hno⟩ := hout hfav.right
        exact ⟨o, by simp [ho], hno⟩
    · exact absurd he (by simp)

/-- A change of rows that is possible if the integer it stores fits. -/
theorem Proceeds.writes {q : Stmt} {check clash : Db → Inp → Outside → Option DbError}
    {locks : Inp → List Res} {w : Inp → Outside → Write} {a : Inp → Outside → q.Ans}
    {o' : Outside → Outside} {Q : q.Ans → List Write → Prop}
    (hq : ∀ inp i db o, run q inp i db o
      = some (WalletLedger.writes inp o (check db inp o) (locks inp) (clash db inp o) (w inp o)
        (a inp o) (o' o)))
    (hgood : ∀ o : LedgerObs, o.stmt = q → o.db = db → DrawsNew o → o.stmt.InRange →
      check (db.applyAll ws) o.inp o.aux = none ∧ clash (db.applyAll ws) o.inp o.aux = none)
    (hQ : ∀ inp o, check (db.applyAll ws) inp o = none → Q (a inp o) (ws ++ [w inp o])) :
    Proceeds i t db ws (query q) Q := by
  intro os ws' r h hdb
  obtain ⟨o, rfl, hstmt, hend⟩ := writes_ended hq h
  rw [hdb o (by simp)] at hend
  rcases hend with ⟨-, hc, -, rfl, rfl⟩ | ⟨hno, he, -⟩
  · exact .inl ⟨_, rfl, hQ _ _ hc⟩
  · refine .inr ⟨he, fun hf => ⟨o, by simp, fun hin => ?_⟩⟩
    exact hno ⟨hf.answered o (by simp), hgood o hstmt (hdb o (by simp)) (hf.drawn o (by simp)) hin⟩

/-- The clock. -/
theorem Proceeds.now {Q : Time → List Write → Prop} (hQ : ∀ n, Q n ws) :
    Proceeds i t db ws (query .now) Q := by
  intro os ws' r h _
  obtain ⟨inp, d, aux, n, eff, -, hrun, rfl, rfl⟩ := h.perform_ended
  cases hrun
  refine .inl ⟨_, rfl, ?_⟩
  have hbuffer : Effect.buffer ({ ans := .ok inp.now, aux := aux } :
      Effect Write Res Outside Exn Time) ws = ws := by
    simp [Effect.buffer]
  exact hbuffer.symm ▸ hQ inp.now

/-- Both legs are inserted, or the amount does not fit. -/
theorem proceeds_legs {header : Transaction} (hid : db.transactions.get header.id = none)
    (hheader : header.id = txn.id) (hcur : mv.currency.length ≤ 3) (hpos : 0 < mv.amount)
    (hwal : ∀ w ∈ mv.wallets, db.wallets.get w.id = some w) :
    Proceeds i t db [.insertTransaction header] (do
        let _ ← bookLeg mv txn mv.first
        bookLeg mv txn mv.second)
      (fun _ ws' => fitsBigint mv.amount = true
        ∧ ∃ e₁ e₂, ws' = [.insertTransaction header, .insertEntry e₁, .insertEntry e₂]) := by
  intro os ws' r h hdb
  have htxn : ∀ vs, ((db.applyAll (.insertTransaction header :: vs)).transactions.get
      txn.id).isSome = true :=
    fun vs => by rw [← hheader]; exact get_header_view header hid
  obtain ⟨hsub₁, hsub₂⟩ := mv.legs_wallets
  have hover : ∀ {o : LedgerObs}, o.stmt.integers = [mv.amount] → fitsBigint mv.amount = false →
      ¬o.stmt.InRange := by
    intro o ho hno hin
    rw [hin mv.amount (by rw [ho]; simp)] at hno
    exact absurd hno (by simp)
  rcases h.bind_ended with ⟨e, h₁, rfl⟩ | ⟨e₁, os₁, os₂, ws₁, rfl, h₁, h₂⟩
  · obtain ⟨o, rfl, hints, -, hnew, ⟨_, hr, -⟩ | ⟨he, hno⟩⟩ := leg_ended h₁ hdb hcur hpos (htxn [])
      (fun w hw => hwal w (hsub₁ hw))
    · exact absurd hr (by simp)
    · refine .inr ⟨by simpa using he, fun hf => ⟨o, by simp, hover hints ?_⟩⟩
      exact hno (hf.answered o (by simp))
        (Res.Absent.view (r := .entry o.inp.uuid) (hnew (hf.drawn o (by simp)))
          (by simp [Write.footprint]))
  · obtain ⟨o₁, rfl, -, hleg₁, -, ⟨x, hx, hid₁, rfl, -⟩ | ⟨⟨e, he⟩, -⟩⟩ := leg_ended h₁
      (fun o ho => hdb o (by simp [ho])) hcur hpos (htxn []) (fun w hw => hwal w (hsub₁ hw))
    · cases hx
      obtain ⟨o₂, rfl, hints, hleg₂, hnew, ⟨e₂, rfl, -, rfl, hfit⟩ | ⟨he, hno⟩⟩ := leg_ended h₂
        (fun o ho => hdb o (by simp [ho])) hcur hpos (htxn _) (fun w hw => hwal w (hsub₂ hw))
      · exact .inl ⟨e₂, rfl, hfit, e₁, e₂, rfl⟩
      · refine .inr ⟨he, fun hf => ⟨o₂, by simp, hover hints ?_⟩⟩
        -- its id is not the one of the first leg
        have hne : o₁.inp.uuid ≠ o₂.inp.uuid :=
          (List.pairwise_cons.mp hf.apart).1 o₂ (by simp) hleg₁ hleg₂
        exact hno (hf.answered o₂ (by simp))
          (Res.Absent.view (r := .entry o₂.inp.uuid) (hnew (hf.drawn o₂ (by simp)))
            (by simpa [Write.footprint, hid₁] using hne.symm))
    · exact absurd he (by simp)

/-- What the flush of the balances and the status leaves: writes that insert no event. -/
def Flushed (ws ws' : List Write) : Prop :=
  ∃ vs, ws' = ws ++ vs ∧ ∀ x ∈ vs, ∀ id, Res.event id ∉ x.footprint

/-- The balances are updated, or one of them does not fit. -/
theorem proceeds_flush {dirty : List Wallet}
    (hrows : ∀ w ∈ dirty, (db.wallets.get w.id).isSome = true)
    (hnonneg : ∀ w ∈ dirty, 0 ≤ w.availableBalance) :
    Proceeds i t db ws (TransactionRepository.flushWallets dirty)
      (fun _ ws' => (∀ w ∈ dirty, fitsBigint w.availableBalance = true) ∧ Flushed ws ws') := by
  induction dirty generalizing ws with
  | nil => exact .ret ⟨by simp, [], by simp, by simp⟩
  | cons w dirty ih =>
      have hq : ∀ inp i d o, run (.updateBalance w.id w.availableBalance) inp i d o
          = some (writes inp o (checkBalance w.availableBalance) [.wallet w.id]
              (if (d.wallets.get w.id).isSome then none else some DbError.stale)
              (.setBalance w.id w.availableBalance inp.now) () o) := fun _ _ _ _ => rfl
      have hfits : fitsBigint w.availableBalance = true
          ↔ checkBalance w.availableBalance = none := by
        have hge := hnonneg w (by simp)
        rw [checkBalance_eq_none]
        simp only [fitsBigint, Bool.and_eq_true, decide_eq_true_eq]
        omega
      refine .bind (Proceeds.writes (Q := fun _ ws' => fitsBigint w.availableBalance = true
        ∧ ∃ n, ws' = ws ++ [.setBalance w.id w.availableBalance n]) hq ?_ ?_)
          (fun _ ws₁ hfirst => ?_)
      · intro o hstmt _ _ hin
        refine ⟨hfits.mp (hin _ (by rw [hstmt]; simp [Stmt.integers])), ?_⟩
        obtain ⟨x, hx⟩ := Option.isSome_iff_exists.mp (hrows w (by simp))
        rw [get_wallet_view hx]
        rfl
      · intro inp o hc
        exact ⟨hfits.mpr hc, inp.now, rfl⟩
      · obtain ⟨hfit, n, rfl⟩ := hfirst
        intro os ws' r h hdb
        rcases ih (fun v hv => hrows v (by simp [hv]))
          (fun v hv => hnonneg v (by simp [hv])) os ws' r h hdb
          with ⟨u, rfl, hall, vs, rfl, hvs⟩ | hfail
        · refine .inl ⟨u, rfl, fun v hv => ?_, _, List.append_assoc _ _ _, fun x hx id => ?_⟩
          · rcases List.mem_cons.mp hv with rfl | hv
            · exact hfit
            · exact hall v hv
          · rcases List.mem_cons.mp hx with rfl | hx
            · simp [Write.footprint]
            · exact hvs x hx id
        · exact .inr hfail

/-- The status is set first in the same flush. -/
theorem proceeds_mark {dirty : List Wallet}
    (hrows : ∀ w ∈ dirty, (db.wallets.get w.id).isSome = true)
    (hnonneg : ∀ w ∈ dirty, 0 ≤ w.availableBalance)
    (htxn : ((db.applyAll ws).transactions.get txn.id).isSome = true) :
    Proceeds i t db ws (TransactionRepository.markCompleted dirty txn)
      (fun txn' ws' => txn' = txn.setStatus .completed
        ∧ (∀ w ∈ dirty, fitsBigint w.availableBalance = true) ∧ Flushed ws ws') := by
  have hperm : (TransactionRepository.inKeyOrder dirty).Perm dirty :=
    List.perm_insertionSort _ dirty
  have hq : ∀ inp i d o, run (.updateStatus txn.id .completed) inp i d o
      = some (writes inp o none [.transaction txn.id]
          (if (d.transactions.get txn.id).isSome then none else some DbError.stale)
          (.setStatus txn.id .completed) () o) := fun _ _ _ _ => rfl
  refine .bind (Proceeds.writes (Q := fun _ ws' => ws' = ws ++ [.setStatus txn.id .completed])
    hq ?_ (fun _ _ _ => rfl)) (fun _ ws₁ hstatus => ?_)
  · intro o _ _ _ _
    refine ⟨rfl, ?_⟩
    rw [htxn]
    rfl
  subst hstatus
  refine .bind (proceeds_flush (fun w hw => hrows w (hperm.mem_iff.mp hw))
    (fun w hw => hnonneg w (hperm.mem_iff.mp hw))) (fun _ ws₂ hflush => ?_)
  obtain ⟨hfits, vs, rfl, hvs⟩ := hflush
  refine .ret ⟨rfl, fun w hw => hfits w (hperm.mem_iff.mpr hw), .setStatus txn.id .completed :: vs,
    by simp, fun x hx id => ?_⟩
  rcases List.mem_cons.mp hx with rfl | hx
  · simp [Write.footprint]
  · exact hvs x hx id

/-- The event is inserted. -/
theorem proceeds_event {amount : Int} {w : Uuid} {c : Option Uuid}
    (hfree : ∀ x ∈ ws, ∀ id, Res.event id ∉ x.footprint) :
    Proceeds i t db ws (LedgerService.recordEvent txn amount w c)
      (fun _ ws' => ∃ vs, ws' = ws ++ vs) := by
  refine .bind (Proceeds.now (Q := fun _ ws' => ws' = ws) (fun _ => rfl)) (fun now ws₁ hws => ?_)
  subst hws
  let payload : Payload := ⟨txn.id, txn.type.value, txn.status.value, txn.currency,
    amount, w, c, now⟩
  have hq : ∀ inp i d o, run (.insertEvent "transaction" txn.id "transaction.completed"
    payload) inp i d o
      = some (writes inp o (checkEvent ⟨inp.uuid, "transaction", txn.id,
        "transaction.completed", payload,
            inp.now, none⟩) [.event inp.uuid]
          (if (d.outboxEvents.get inp.uuid).isSome then some DbError.integrity else none)
          (.insertEvent ⟨inp.uuid, "transaction", txn.id, "transaction.completed",
            payload, inp.now, none⟩)
          ⟨inp.uuid, "transaction", txn.id, "transaction.completed", payload, inp.now, none⟩ o) :=
    fun _ _ _ _ => rfl
  refine .bind (Proceeds.writes (Q := fun _ ws' => ∃ vs, ws' = ws₁ ++ vs) hq ?_
    (fun _ _ _ => ⟨_, rfl⟩))
    (fun _ _ hvs => .ret hvs)
  intro o hstmt ho hnew _
  have hcheck : firstError [(decide ("transaction".length ≤ 50), .data),
      (decide ("transaction.completed".length ≤ 100), .data)] = none := by decide
  refine ⟨hcheck, ?_⟩
  unfold DrawsNew at hnew
  rw [hstmt] at hnew
  have hnew : (Res.event o.inp.uuid).Absent db := by
    rw [← ho]
    exact hnew
  have habs : (db.applyAll ws₁).outboxEvents.get o.inp.uuid = none :=
    hnew.view (fun x hx => hfree x hx _)
  rw [habs]
  rfl

/-! ## The tail of an operation -/

/-- What comes after the tail comes after it. -/
theorem book_bind {β : Type} (mv : Movement) (k : Transaction → Tx β) :
    book mv k = book mv pure >>= k := by
  unfold book
  simp only [bind_assoc]
  rfl

theorem book_quiet (mv : Movement) : (book mv pure).Uses (fun q => q ≠ .commit) := by
  have hflush : ∀ dirty, (TransactionRepository.flushWallets dirty).Uses
      (fun q => q ≠ .commit) := by
    intro dirty
    induction dirty with
    | nil => trivial
    | cons w dirty ih => exact .bind (.perform (by simp)) (fun _ => ih)
  refine .bind (.bind (.perform (by simp)) (fun _ => .perform (by simp))) (fun txn => ?_)
  refine .bind (.perform (by simp)) (fun _ => .bind (.perform (by simp)) (fun _ => ?_))
  refine .bind (.bind (.perform (by simp))
    (fun _ => .bind (hflush _) (fun _ => trivial))) (fun txn => ?_)
  refine .bind (.bind (.perform (by simp)) (fun _ => .bind (.perform (by simp)) (fun _ => trivial)))
    (fun _ => trivial)

/-- It stores the integers of its movement. -/
theorem book_own {β : Type} {k : Transaction → Tx β}
    (hk : ∀ txn, (k txn).Uses (fun q => q.integers = [])) :
    (book mv k).Uses (fun q => q.integers ⊆ mv.integers) := by
  have hamount : [mv.amount] ⊆ mv.integers := by simp [Movement.integers]
  have hflush : ∀ dirty, dirty ⊆ mv.dirty →
      (TransactionRepository.flushWallets dirty).Uses (fun q => q.integers ⊆ mv.integers) := by
    intro dirty hsub
    induction dirty with
    | nil => trivial
    | cons w dirty ih =>
        refine .bind (.perform ?_) (fun _ => ih (fun v hv => hsub (List.mem_cons_of_mem _ hv)))
        have hmem : w.availableBalance ∈ mv.integers :=
          List.mem_cons_of_mem _ (List.mem_map_of_mem (hsub (by simp)))
        exact List.cons_subset.mpr ⟨hmem, List.nil_subset _⟩
  have hperm := List.perm_insertionSort (fun a b : Wallet => a.id ≤ b.id) mv.dirty
  have hnil : [] ⊆ mv.integers := List.nil_subset _
  refine .bind (.bind (.perform hnil) (fun _ => .perform hnil)) (fun txn => ?_)
  refine .bind (.perform hamount) (fun _ => .bind (.perform hamount) (fun _ => ?_))
  refine .bind (.bind (.perform hnil) (fun _ => .bind (hflush _ hperm.subset) (fun _ => trivial)))
    (fun txn => ?_)
  refine .bind (.bind (.perform hnil)
    (fun _ => .bind (.perform hnil) (fun _ => trivial))) (fun _ => ?_)
  refine (hk txn).mono (fun q hq => ?_)
  rw [hq]
  exact hnil

/-- **How the tail ends**: before the header, after it, or with the movement in the session's
buffer. -/
theorem booked_ended {os : List LedgerObs} {ws' : List Write} {r : Except Exn Transaction}
    (h : Trail engine i t (book mv pure) [] os (ofExcept r) ws')
    (hdb : ∀ o ∈ os, o.db = db) (hcur : mv.currency.length ≤ 3) (hpos : 0 < mv.amount)
    (hback : mv.Backed db) (hcol : db.InColumns) :
    ((∃ e, r = .error (.db e)) ∧ (∀ o ∈ os, o.stmt.integers = [])
        ∧ (Favourable os → ¬db.Accepts mv.key))
      ∨ (db.Accepts mv.key ∧ (∃ e, r = .error (.db e))
        ∧ (Favourable os → ∃ o ∈ os, ¬o.stmt.InRange))
      ∨ (db.Accepts mv.key ∧ (∀ n ∈ mv.integers, fitsBigint n = true)
        ∧ ∃ txn header vs, r = .ok txn ∧ header.id = txn.id
          ∧ ws' = .insertTransaction header :: vs) := by
  have hmute : (TransactionRepository.create mv.type mv.currency mv.key).Uses
      (fun q => q.integers = []) :=
    .bind (.perform rfl) (fun _ => .perform rfl)
  rcases h.bind_ended with ⟨e, h₁, rfl⟩ | ⟨txn, os₁, os₂, ws₁, rfl, h₁, h₂⟩
  · rcases header_ended h₁ hdb with ⟨_, hr, -⟩ | ⟨he, hno⟩
    · exact absurd hr (by simp)
    · exact .inl ⟨by simpa using he, (h₁.uses hmute).1, fun hf => hno hf hcur⟩
  rcases header_ended h₁ (fun o ho => hdb o (by simp [ho])) with ⟨id, htxn, hid, hacc,
    rfl⟩ | ⟨⟨e, he⟩, -⟩
  · cases htxn
    let header : Transaction := ⟨id, mv.type, .pending, mv.currency, mv.key⟩
    have hrest : Proceeds i t db [.insertTransaction header] (do
        let _ ← (do let _ ← bookLeg mv header mv.first; bookLeg mv header mv.second)
        let txn ← TransactionRepository.markCompleted mv.dirty header
        LedgerService.recordEvent txn mv.amount mv.subject mv.counterparty
        pure txn)
        (fun txn ws' => (∀ n ∈ mv.integers, fitsBigint n = true)
          ∧ header.id = txn.id ∧ ∃ vs, ws' = .insertTransaction header :: vs) := by
      refine .bind (proceeds_legs hid rfl hcur hpos hback.wallets) (fun _ ws₁ hlegs => ?_)
      obtain ⟨hamount, e₁, e₂, rfl⟩ := hlegs
      refine .bind (proceeds_mark hback.dirty (hback.nonneg hcol hpos)
        (get_header_view header hid)) (fun _ ws₂ hmark => ?_)
      obtain ⟨rfl, hfits, vs, rfl, hvs⟩ := hmark
      refine .bind (proceeds_event ?_) (fun _ ws₃ hevent => .ret ⟨?_, rfl, ?_⟩)
      · intro x hx eid
        rcases List.mem_append.mp hx with hx | hx
        · simp only [List.mem_cons, List.not_mem_nil, or_false] at hx
          rcases hx with rfl | rfl | rfl <;> simp [Write.footprint]
        · exact hvs x hx eid
      · intro n hn
        rcases List.mem_cons.mp hn with rfl | hn
        · exact hamount
        · obtain ⟨w, hw, rfl⟩ := List.mem_map.mp hn
          exact hfits w hw
      · obtain ⟨vs', rfl⟩ := hevent
        exact ⟨_, rfl⟩
    have hprog : Trail engine i t (do
        let _ ← (do let _ ← bookLeg mv header mv.first; bookLeg mv header mv.second)
        let txn ← TransactionRepository.markCompleted mv.dirty header
        LedgerService.recordEvent txn mv.amount mv.subject mv.counterparty
        pure txn) [.insertTransaction header] os₂ (ofExcept r) ws' := by
      rw [bind_assoc]
      exact h₂
    rcases hrest os₂ ws' r hprog (fun o ho => hdb o (by simp [ho])) with
      ⟨txn, rfl, hfits, hhead, vs, rfl⟩ | ⟨he, hout⟩
    · exact .inr (.inr ⟨hacc, hfits, txn, header, vs, rfl, hhead, rfl⟩)
    · refine .inr (.inl ⟨hacc, he, fun hf => ?_⟩)
      obtain ⟨o, ho, hno⟩ := hout hf.right
      exact ⟨o, by simp [ho], hno⟩
  · exact absurd he (by simp)

end tail

/-! ## The operations -/

section operations

variable {i : Sid} {t : Request} {db : Db} {os : List LedgerObs}
    {ws ws' : List Write} {mv : Movement}
  {r : Except Exn (Transaction × Option Wallet)}

/-- Both rows are read back from wherever they are. -/
theorem readBack_ended {path id : Uuid} (h : Trail engine i t (do
      let wallet : Wallet ← query (.refreshWallet path)
      let txn : Transaction ← query (.refreshTransaction id)
      pure (txn, some wallet)) [] os (ofExcept r) ws') (hf : Favourable os)
    (hrows : ∀ o ∈ os, ¬(Res.wallet path).Absent o.db ∧ ¬(Res.transaction id).Absent o.db) :
    ∃ txn x, r = .ok (txn, some x) := by
  rcases h.bind_ended with ⟨e, h₁, -⟩ | ⟨x, os₁, os₂, ws₁, rfl, h₁, h₂⟩
  · obtain ⟨o, rfl, -, ⟨-, a, -, hr, -⟩ | ⟨hno, -⟩⟩ :=
      refresh_ended (f := fun d => d.wallets.get path) (fun _ _ _ _ => rfl) h₁
    · exact absurd hr (by simp)
    · exact absurd ⟨hf.answered o (by simp), Option.isSome_iff_ne_none.mpr
        (hrows o (by simp)).1⟩ hno
  · obtain ⟨o, rfl, -, ⟨-, a, -, -, rfl⟩ | ⟨-, ⟨e, he⟩, -⟩⟩ :=
      refresh_ended (f := fun d => d.wallets.get path) (fun _ _ _ _ => rfl) h₁
    · rcases h₂.bind_ended with ⟨e, h₃, -⟩ | ⟨txn, os₃, os₄, ws₃, rfl, h₃, h₄⟩
      · obtain ⟨o', rfl, -, ⟨-, a, -, hr, -⟩ | ⟨hno, -⟩⟩ :=
          refresh_ended (f := fun d => d.transactions.get id) (fun _ _ _ _ => rfl) h₃
        · exact absurd hr (by simp)
        · exact absurd ⟨hf.answered o' (by simp), Option.isSome_iff_ne_none.mpr
            (hrows o' (by simp)).2⟩ hno
      · obtain ⟨-, hr, -⟩ := h₄.ret_inv
        exact ⟨txn, x, ofExcept_inj hr⟩
    · exact absurd he (by simp)

theorem mute_replay (key : Option String) (path : Uuid) :
    (LedgerService.replay key path).Uses (fun q => q.integers = [] ∧ q ≠ .commit) := by
  unfold LedgerService.replay
  split
  · refine .bind (.perform ⟨rfl, by simp⟩) (fun existing => ?_)
    cases existing with
    | none => trivial
    | some txn => exact .bind (.perform ⟨rfl, by simp⟩) (fun _ => trivial)
  · trivial

theorem mute_commitKeyed (txn : Transaction) (key : Option String) (path : Uuid) :
    (LedgerService.commitKeyed txn key path).Uses (fun q => q.integers = []) := by
  unfold LedgerService.commitKeyed
  rw [attempt_bind]
  refine .handle (.perform rfl) (fun r => ?_)
  cases r with
  | ok u => exact .bind (.perform rfl) (fun _ => .bind (.perform rfl) (fun _ => trivial))
  | error e =>
      have hreplay := (mute_replay key path).mono (fun _ hq => hq.1)
      cases e with
      | db e =>
          cases e with
          | integrity =>
              refine .bind (.perform rfl) (fun _ => .bind hreplay (fun r => ?_))
              cases r with
              | none => trivial
              | some r => trivial
          | _ => trivial
      | _ => trivial

/-- The end of a deposit. -/
theorem deposit_completes {path id : Uuid} (h : Trail engine i t (do
      query .commit
      let wallet : Wallet ← query (.refreshWallet path)
      let txn : Transaction ← query (.refreshTransaction id)
      pure (txn, some wallet)) ws os (ofExcept r) ws') : Completes path id os r := by
  rcases h.bind_ended with ⟨e, h₁, rfl⟩ | ⟨u, os₁, os₂, ws₁, rfl, h₁, h₂⟩
  · obtain ⟨d, rfl, hcommit, rfl, ⟨f, hf, -⟩ | ⟨-, hr⟩⟩ := sealing_ended h₁
    · exact ⟨d, [], rfl, hcommit, fun hfav =>
        absurd (hf.symm.trans (hfav.answered d (by simp))) (by simp)⟩
    · exact absurd hr (by simp)
  · obtain ⟨d, rfl, hcommit, rfl, -⟩ := sealing_ended h₁
    exact ⟨d, os₂, rfl, hcommit, fun hfav hrows => readBack_ended h₂ hfav.right hrows⟩

/-- The end of a keyed operation. -/
theorem commitKeyed_completes {txn : Transaction} {key : Option String} {path : Uuid}
    (h : Trail engine i t (LedgerService.commitKeyed txn key path) ws os (ofExcept r) ws') :
    Completes path txn.id os r := by
  unfold LedgerService.commitKeyed at h
  rw [attempt_bind] at h
  obtain ⟨r', os₁, os₂, ws₁, rfl, h₁, h₂⟩ := h.handle_ended
  obtain ⟨d, rfl, hcommit, rfl, ⟨f, hf, -⟩ | ⟨-, rfl⟩⟩ := sealing_ended h₁
  · exact ⟨d, os₂, rfl, hcommit, fun hfav =>
      absurd (hf.symm.trans (hfav.answered d (by simp))) (by simp)⟩
  · exact ⟨d, os₂, rfl, hcommit, fun hfav hrows => readBack_ended h₂ hfav.right hrows⟩

/-- Several rows are locked and read. -/
theorem lockEach_ended {ids : List Uuid} {a : Except Exn (List (Uuid × Option Wallet))}
    (h : Trail engine i t (WalletRepository.lockEach ids) [] os (ofExcept a) ws')
    (hdb : ∀ o ∈ os, o.db = db) :
    (a = .ok (ids.map (fun id => (id, db.wallets.get id))) ∧ ws' = [])
      ∨ (∃ e, a = .error e) ∧ ¬Favourable os := by
  induction ids generalizing os a ws' with
  | nil =>
      obtain ⟨rfl, hr, rfl⟩ := h.ret_inv
      exact .inl ⟨ofExcept_inj hr, rfl⟩
  | cons id ids ih =>
      rcases h.bind_ended with ⟨e, h₁, rfl⟩ | ⟨x, os₁, os₂, ws₁, rfl, h₁, h₂⟩
      · obtain ⟨o, rfl, -, ⟨hfault, -⟩ | ⟨-, hr, -⟩⟩ := locked_ended h₁
        · exact .inr ⟨⟨e, rfl⟩, fun hfav => hfault (hfav.answered o (by simp))⟩
        · exact absurd hr (by simp)
      · obtain ⟨o, rfl, -, ⟨-, ⟨e, he⟩, -⟩ | ⟨-, hr, rfl⟩⟩ := locked_ended h₁
        · exact absurd he (by simp)
        · rw [hdb o (by simp)] at hr
          cases hr
          rcases h₂.bind_ended with ⟨e, h₃, rfl⟩ | ⟨rest, os₃, os₄, ws₃, rfl, h₃, h₄⟩
          · rcases ih h₃ (fun d hd => hdb d (by simp [hd])) with ⟨hr, -⟩ | ⟨-, hno⟩
            · exact absurd hr (by simp)
            · exact .inr ⟨⟨e, rfl⟩, fun hfav => hno hfav.right⟩
          · rcases ih h₃ (fun d hd => hdb d (by simp [hd])) with ⟨hr, rfl⟩ | ⟨⟨e, he⟩, -⟩
            · cases hr
              obtain ⟨rfl, hr, rfl⟩ := h₄.ret_inv
              exact .inl ⟨ofExcept_inj hr, rfl⟩
            · exact absurd he (by simp)

theorem mute_lockEach (ids : List Uuid) :
    (WalletRepository.lockEach ids).Uses (fun q => q.integers = [] ∧ q ≠ .commit) := by
  induction ids with
  | nil => trivial
  | cons id ids ih => exact .bind (.perform ⟨rfl, by simp⟩) (fun _ => .bind ih (fun _ => trivial))

/-- What a look-up finds. -/
theorem replay_ended {key : Option String} {path : Uuid}
    {a : Except Exn (Option (Transaction × Option Wallet))}
    (h : Trail engine i t (LedgerService.replay key path) [] os (ofExcept a) ws')
    (hdb : ∀ o ∈ os, o.db = db) :
    ((∃ e, a = .error e) ∧ ¬Favourable os)
      ∨ (∃ k txn, key = some k ∧ k ≠ "" ∧ db.transactionByKey k = some txn
        ∧ a = .ok (some (txn, db.wallets.get path)) ∧ ws' = [])
      ∨ (a = .ok none ∧ ws' = [] ∧ ∀ k ∈ key, k ≠ "" → db.transactionByKey k = none) := by
  unfold LedgerService.replay at h
  by_cases htruthy : LedgerService.truthy key = true
  swap
  · -- a key that counts as false is not looked up
    rw [if_neg htruthy] at h
    obtain ⟨rfl, hr, rfl⟩ := h.ret_inv
    refine .inr (.inr ⟨ofExcept_inj hr, rfl, fun k hk hne => ?_⟩)
    cases hk
    exact absurd (by simpa [LedgerService.truthy] using hne) htruthy
  rw [if_pos htruthy] at h
  cases key with
  | none => exact absurd htruthy (by simp [LedgerService.truthy])
  | some k =>
      have hne : k ≠ "" := by simpa [LedgerService.truthy] using htruthy
      have hq : ∀ inp i d o, run (.selectTransactionByKey k) inp i d o
          = some (reads inp o (d.transactionByKey k)) := fun _ _ _ _ => rfl
      have hq' : ∀ inp i d o, run (.selectWallet path) inp i d o
          = some (reads inp o (d.wallets.get path)) := fun _ _ _ _ => rfl
      rcases h.bind_ended with ⟨e, h₁, rfl⟩ | ⟨x, os₁, os₂, ws₁, rfl, h₁, h₂⟩
      · obtain ⟨o, rfl, -, ⟨f, hf, -⟩ | ⟨-, hr, -⟩⟩ := read_ended hq h₁
        · exact .inl ⟨⟨e, rfl⟩, fun hfav =>
            absurd (hf.symm.trans (hfav.answered o (by simp))) (by simp)⟩
        · exact absurd hr (by simp)
      · obtain ⟨o, rfl, -, ⟨f, -, hr, -⟩ | ⟨-, hr, rfl⟩⟩ := read_ended hq h₁
        · exact absurd hr (by simp)
        · have hrow : x = db.transactionByKey k := by
            rw [← hdb o (by simp)]
            exact Except.ok.inj hr
          cases x with
          | none =>
              obtain ⟨rfl, hr, rfl⟩ := h₂.ret_inv
              refine .inr (.inr ⟨ofExcept_inj hr, rfl, fun k' hk' _ => ?_⟩)
              cases hk'
              exact hrow.symm
          | some txn =>
              rcases h₂.bind_ended with ⟨e, h₃, rfl⟩ | ⟨wallet, os₃, os₄, ws₃, rfl, h₃, h₄⟩
              · obtain ⟨o', rfl, -, ⟨f, hf, -⟩ | ⟨-, hr, -⟩⟩ := read_ended hq' h₃
                · exact .inl ⟨⟨e, rfl⟩,
                    fun hfav => absurd (hf.symm.trans (hfav.answered o' (by simp))) (by simp)⟩
                · exact absurd hr (by simp)
              · obtain ⟨o', rfl, -, ⟨f, -, hr, -⟩ | ⟨-, hr, rfl⟩⟩ := read_ended hq' h₃
                · exact absurd hr (by simp)
                · have hwallet : wallet = db.wallets.get path := by
                    rw [← hdb o' (by simp)]
                    exact Except.ok.inj hr
                  obtain ⟨rfl, hr, rfl⟩ := h₄.ret_inv
                  rw [hwallet] at hr
                  exact .inr (.inl ⟨k, txn, rfl, hne, hrow.symm, ofExcept_inj hr, rfl⟩)

variable [Runtime]

/-- **How an operation ends that has passed its checks.** -/
theorem book_ending {k : Transaction → Tx (Transaction × Option Wallet)} (hadm : t.Admits db mv)
    (hcol : db.InColumns) (hunbound : ∀ k ∈ t.key, k ≠ "" → db.transactionByKey k = none)
    (hmute : ∀ txn, (k txn).Uses (fun q => q.integers = []))
    (hk : ∀ {txn : Transaction} {ws ws' : List Write} {os : List LedgerObs},
      Trail engine i t (k txn) ws os (ofExcept r) ws' → Completes t.path txn.id os r)
    (h : Trail engine i t (book mv k) [] os (ofExcept r) ws') (hmet : Met db os) :
    Ending t db os r := by
  have hkey : mv.key = t.key := hadm.moves.carries
  have hown := (h.uses (book_own hmute)).1
  have hcur := hadm.currency_length hcol
  rw [book_bind] at h
  rcases h.bind_ended with ⟨e, h₁, rfl⟩ | ⟨txn, os₁, os₂, ws₁, rfl, h₁, h₂⟩
  · have hdb := hmet.all (h₁.uses (book_quiet mv)).1
    rcases booked_ended h₁ hdb hcur hadm.moves.amount_pos hadm.backed hcol with
      ⟨⟨e, he⟩, hmutes, hno⟩ | ⟨hacc, ⟨e, he⟩, hover⟩ | ⟨-, -, _, _, _, hr, -⟩
    · cases he
      exact .barred hadm hunbound (hkey ▸ hno) hmutes
    · cases he
      exact .burst hadm (hkey ▸ hacc) hown hover
    · exact absurd hr (by simp)
  · have hdb := (hmet.append (h₁.uses (book_quiet mv)).1).1
    rcases booked_ended h₁ hdb hcur hadm.moves.amount_pos hadm.backed hcol with
      ⟨⟨e, he⟩, -⟩ | ⟨-, ⟨e, he⟩, -⟩ | ⟨hacc, hfits, txn', header, vs, hr, hid, rfl⟩
    · exact absurd he (by simp)
    · exact absurd he (by simp)
    · cases hr
      refine .booked hadm (hkey ▸ hacc) hown hfits rfl h₁.buffered (by simp)
        (fun d habs => ?_) (hk h₂)
      -- the header is among the writes, and nothing is deleted
      have hfree : (d.transactions.insert header).get txn.id = none := by
        have hrest : (Res.transaction txn.id).Absent
            (engine.applyAll (d.apply (.insertTransaction header)) vs) := habs
        exact hrest.of_applyAll
      rw [← hid] at hfree
      rw [Table.get_insert_self (Table.get_of_insert_none hfree)] at hfree
      exact absurd hfree (by simp)

/-! ### Checks -/

theorem raise_ending {e : Exn} (h : Trail engine i t (raise e) [] os (ofExcept r) ws')
    (hhandled : t.respond (.error e) ≠ some .serverError) (hkept : ¬t.Orphaned db)
    (hrejects : ∀ mv, ¬t.Admits db mv) : Ending t db os r := by
  obtain ⟨rfl, hr, -⟩ := h.raise_inv
  have hr : r = .error e := ofExcept_inj hr
  rw [hr]
  exact .refused hhandled hrejects hkept (by simp)

theorem raiseIf_ending {c : Prop} [Decidable c] {e : Exn}
    {f : Unit → Tx (Transaction × Option Wallet)}
    (h : Trail engine i t (raiseIf c e >>= f) [] os (ofExcept r) ws')
    (hhandled : t.respond (.error e) ≠ some .serverError) (hkept : ¬t.Orphaned db)
    (hrejects : c → ∀ mv, ¬t.Admits db mv)
    (hf : ¬c → Trail engine i t (f ()) [] os (ofExcept r) ws' → Ending t db os r) :
    Ending t db os r := by
  rcases raiseIf_ended h with ⟨hc, rfl, rfl, -⟩ | ⟨hc, hrest⟩
  · exact .refused hhandled (hrejects hc) hkept (by simp)
  · exact hf hc hrest

/-- A row is locked and read. -/
theorem lock_ending {id : Uuid} {f : Option Wallet → Tx (Transaction × Option Wallet)}
    (h : Trail engine i t (WalletRepository.getWithLock id >>= f) [] os (ofExcept r) ws')
    (hmet : Met db os)
    (hf : ∀ os', Trail engine i t (f (db.wallets.get id)) [] os' (ofExcept r) ws' → Met db os' →
      Ending t db os' r) : Ending t db os r := by
  have hmute : ∀ {o : LedgerObs}, o.stmt = .selectWalletForUpdate id →
      ∀ d ∈ [o], d.stmt.integers = [] ∧ d.stmt ≠ .commit := by
    intro o ho d hd
    rw [List.mem_singleton.mp hd, ho]
    exact ⟨rfl, by simp⟩
  rcases h.bind_ended with ⟨e, h₁, rfl⟩ | ⟨x, os₁, os₂, ws₁, rfl, h₁, h₂⟩
  · obtain ⟨o, rfl, hstmt, ⟨hfault, -⟩ | ⟨-, hr, -⟩⟩ := locked_ended h₁
    · exact .failed (fun hfav => hfault (hfav.answered o (by simp)))
        (fun d hd => (hmute hstmt d hd).1)
    · exact absurd hr (by simp)
  · have hfirst := h₁.buffered
    obtain ⟨o, rfl, hstmt, ⟨-, ⟨e, he⟩, -⟩ | ⟨-, hr, rfl⟩⟩ := locked_ended h₁
    · exact absurd he (by simp)
    · obtain ⟨hdb, hmet'⟩ := hmet.append (fun d hd => (hmute hstmt d hd).2)
      rw [hdb o (by simp)] at hr
      cases hr
      have hext := (hf os₂ h₂ hmet').extend [o] [] hfirst
        (fun d hd => (hmute hstmt d hd).1) (by simp)
      simpa using hext

/-- Both rows of a transfer. -/
theorem locks_ending {ids : List Uuid}
    {f : List (Uuid × Option Wallet) → Tx (Transaction × Option Wallet)}
    (h : Trail engine i t (WalletRepository.getForUpdateOrdered ids >>= f) [] os (ofExcept r) ws')
    (hmet : Met db os) (hf : ∀ os',
      Trail engine i t (f ((WalletRepository.sortedSet ids).map
        (fun id => (id, db.wallets.get id)))) [] os'
        (ofExcept r) ws' → Met db os' → Ending t db os' r) : Ending t db os r := by
  have hmute := mute_lockEach (WalletRepository.sortedSet ids)
  rcases h.bind_ended with ⟨e, h₁, rfl⟩ | ⟨x, os₁, os₂, ws₁, rfl, h₁, h₂⟩
  · have hstmts := (h₁.uses hmute).1
    rcases lockEach_ended h₁ (hmet.all (fun o ho => (hstmts o ho).2)) with ⟨hr, -⟩ | ⟨-, hno⟩
    · exact absurd hr (by simp)
    · exact .failed hno (fun o ho => (hstmts o ho).1)
  · have hstmts := (h₁.uses hmute).1
    have hfirst := h₁.buffered
    obtain ⟨hdb, hmet'⟩ := hmet.append (fun o ho => (hstmts o ho).2)
    rcases lockEach_ended h₁ hdb with ⟨hr, rfl⟩ | ⟨⟨e, he⟩, -⟩
    · cases hr
      have hext := (hf os₂ h₂ hmet').extend os₁ [] hfirst (fun o ho => (hstmts o ho).1) (by simp)
      simpa using hext
    · exact absurd he (by simp)

/-- A keyed operation is a replay first. -/
theorem replaying_ending {key : Option String} {path : Uuid} {p : Tx (Transaction × Option Wallet)}
    (h : Trail engine i t (do
      match ← LedgerService.replay key path with
      | some r => pure r
      | none =>
          p) [] os (ofExcept r) ws') (hmet : Met db os) (hkey : t.key = key) (hpath : t.path = path)
    (hself : t.isSelfTransfer = false)
    (hp : ∀ os', (∀ k ∈ t.key, k ≠ "" → db.transactionByKey k = none) →
      Trail engine i t p [] os' (ofExcept r) ws' → Met db os' → Ending t db os' r) :
      Ending t db os r := by
  have hmute := mute_replay key path
  rcases h.bind_ended with ⟨e, h₁, rfl⟩ | ⟨x, os₁, os₂, ws₁, rfl, h₁, h₂⟩
  · have hstmts := (h₁.uses hmute).1
    rcases replay_ended h₁ (hmet.all (fun o ho => (hstmts o ho).2)) with
      ⟨-, hno⟩ | ⟨_, _, -, -, -, hr, -⟩ | ⟨hr, -, -⟩
    · exact .failed hno (fun o ho => (hstmts o ho).1)
    · exact absurd hr (by simp)
    · exact absurd hr (by simp)
  · have hstmts := (h₁.uses hmute).1
    have hfirst := h₁.buffered
    obtain ⟨hdb, hmet'⟩ := hmet.append (fun o ho => (hstmts o ho).2)
    rcases replay_ended h₁ hdb with ⟨⟨e, he⟩, -⟩ | ⟨k, txn, hk, hne, hbound, hr, rfl⟩
      | ⟨hr, rfl, hunbound⟩
    · exact absurd he (by simp)
    · cases hr
      obtain ⟨rfl, hr, -⟩ := h₂.ret_inv
      have hr : r = .ok (txn, db.wallets.get path) := ofExcept_inj hr
      rw [hr, ← hpath, List.append_nil]
      exact .replayed (hkey.trans hk) hne hbound hself (fun o ho => (hstmts o ho).1)
    · cases hr
      have hext := (hp os₂ (hkey ▸ hunbound) h₂ hmet').extend os₁ [] hfirst
        (fun o ho => (hstmts o ho).1) (by simp)
      simpa using hext

/-! ### The three operations -/

omit [Runtime] in
/-- A detail with its status is not the answer of a crash. -/
theorem error_handled {statusCode : Nat} {detail : String} (h : statusCode ≠ 500) :
    some (Response.error statusCode detail) ≠ some .serverError := by
  intro he
  exact h (congrArg Response.statusCode (Option.some.inj he))

theorem deposit_ending {w u : Uuid} {data : DepositRequest}
    (h : Trail engine i (.deposit w u data) (LedgerService.deposit w u data) [] os (ofExcept r) ws')
    (hmet : Met db os) (hcol : db.InColumns) : Ending (.deposit w u data) db os r := by
  have hkept : ¬(Request.deposit w u data).Orphaned db := by
    rintro ⟨-, ⟨k, hk, -⟩, -⟩
    exact absurd hk (by simp [Request.key])
  rw [deposit_eq] at h
  refine lock_ending h hmet (fun os' h hmet => ?_)
  cases hrow : db.wallets.get w with
  | none =>
      rw [hrow] at h
      refine raise_ending h (error_handled (by decide)) hkept (fun mv hadm => ?_)
      obtain ⟨x, hx, -⟩ := admits_deposit.mp hadm
      exact absurd (hrow.symm.trans hx) (by simp)
  | some x =>
      rw [hrow] at h
      have hadmits : ∀ {mv}, (Request.deposit w u data).Admits db mv →
          x.userId = u ∧ x.currency = upper data.currency := by
        intro mv hadm
        obtain ⟨x', hx', hu, hc, -⟩ := admits_deposit.mp hadm
        cases hrow.symm.trans hx'
        exact ⟨hu, hc⟩
      refine raiseIf_ending h (error_handled (by decide)) hkept
        (fun hu mv hadm => hu (hadmits hadm).1) (fun hu h => ?_)
      refine raiseIf_ending h (error_handled (by decide)) hkept
        (fun hc mv hadm => hc (hadmits hadm).2) (fun hc h => ?_)
      have hid : x.id = w := Table.key_of_get hrow
      refine book_ending (admits_deposit.mpr ⟨x, hrow, not_not.mp hu, not_not.mp hc, rfl⟩) hcol
        (by simp [Request.key]) (fun txn => ?_) (fun h => ?_) h hmet
      · exact .bind (.perform rfl) (fun _ => .bind (.perform rfl) (fun _ => .bind (.perform rfl)
          (fun _ => trivial)))
      · rw [hid] at h
        exact deposit_completes h

theorem withdraw_ending {w u : Uuid} {data : WithdrawalRequest} {key : Option String}
    (h : Trail engine i (.withdraw w u data key) (LedgerService.withdraw w u data key) [] os
      (ofExcept r) ws')
    (hmet : Met db os) (hcol : db.InColumns) : Ending (.withdraw w u data key) db os r := by
  rw [withdraw_eq] at h
  refine replaying_ending h hmet rfl rfl rfl (fun os' hunbound h hmet => ?_)
  have hkept : ¬(Request.withdraw w u data key).Orphaned db := by
    rintro ⟨-, ⟨k, hk, hne, hbound⟩, -⟩
    rw [hunbound k hk hne] at hbound
    exact absurd hbound (by simp)
  refine lock_ending h hmet (fun os' h hmet => ?_)
  cases hrow : db.wallets.get w with
  | none =>
      rw [hrow] at h
      refine raise_ending h (error_handled (by decide)) hkept (fun mv hadm => ?_)
      obtain ⟨x, hx, -⟩ := admits_withdraw.mp hadm
      exact absurd (hrow.symm.trans hx) (by simp)
  | some x =>
      rw [hrow] at h
      have hadmits : ∀ {mv}, (Request.withdraw w u data key).Admits db mv →
          x.userId = u ∧ x.currency = upper data.currency ∧ data.amount ≤ x.availableBalance := by
        intro mv hadm
        obtain ⟨x', hx', hu, hc, hb, -⟩ := admits_withdraw.mp hadm
        cases hrow.symm.trans hx'
        exact ⟨hu, hc, hb⟩
      refine raiseIf_ending h (error_handled (by decide)) hkept
        (fun hu mv hadm => hu (hadmits hadm).1) (fun hu h => ?_)
      refine raiseIf_ending h (error_handled (by decide)) hkept
        (fun hc mv hadm => hc (hadmits hadm).2.1) (fun hc h => ?_)
      refine raiseIf_ending h (error_handled (by decide)) hkept
        (fun hb mv hadm => absurd (hadmits hadm).2.2 (not_le.mpr hb)) (fun hb h => ?_)
      exact book_ending
        (admits_withdraw.mpr ⟨x, hrow, not_not.mp hu, not_not.mp hc, not_lt.mp hb,
          rfl⟩) hcol hunbound
        (fun txn => mute_commitKeyed txn key w) (fun h => commitKeyed_completes h) h hmet

theorem transfer_ending {w u : Uuid} {data : TransferRequest} {key : Option String}
    (h : Trail engine i (.transfer w u data key) (LedgerService.transfer w u data key) [] os
      (ofExcept r) ws')
    (hmet : Met db os) (hcol : db.InColumns) : Ending (.transfer w u data key) db os r := by
  rw [transfer_eq] at h
  rcases raiseIf_ended h with ⟨hself, rfl, rfl, -⟩ | ⟨hne, h⟩
  · -- the first check, made before the look-up
    refine .refused (error_handled (by decide)) (fun mv hadm => ?_) ?_ (by simp)
    · exact (admits_transfer.mp hadm).1 hself
    · rintro ⟨hno, -⟩
      exact absurd hself (by simpa [Request.isSelfTransfer] using hno)
  refine replaying_ending h hmet rfl rfl (by simpa [Request.isSelfTransfer] using hne)
    (fun os' hunbound h hmet => ?_)
  have hkept : ¬(Request.transfer w u data key).Orphaned db := by
    rintro ⟨-, ⟨k, hk, hne, hbound⟩, -⟩
    rw [hunbound k hk hne] at hbound
    exact absurd hbound (by simp)
  refine locks_ending h hmet (fun os' h hmet => ?_)
  rw [lookup_locked [w, data.recipientWalletId] (by simp)] at h
  cases hrow : db.wallets.get w with
  | none =>
      rw [hrow] at h
      refine raise_ending h (error_handled (by decide)) hkept (fun mv hadm => ?_)
      obtain ⟨-, x, -, hx, -⟩ := admits_transfer.mp hadm
      exact absurd (hrow.symm.trans hx) (by simp)
  | some x =>
      rw [hrow] at h
      have hsender : ∀ {mv}, (Request.transfer w u data key).Admits db mv →
          x.userId = u ∧ x.currency = upper data.currency ∧ data.amount ≤ x.availableBalance := by
        intro mv hadm
        obtain ⟨-, x', y, hx', hu, -, hc, -, hb, -⟩ := admits_transfer.mp hadm
        cases hrow.symm.trans hx'
        exact ⟨hu, hc, hb⟩
      refine raiseIf_ending h (error_handled (by decide)) hkept
        (fun hu mv hadm => hu (hsender hadm).1) (fun hu h => ?_)
      rw [lookup_locked [w, data.recipientWalletId] (by simp)] at h
      cases hrow' : db.wallets.get data.recipientWalletId with
      | none =>
          rw [hrow'] at h
          refine raise_ending h (error_handled (by decide)) hkept (fun mv hadm => ?_)
          obtain ⟨-, x', y, -, -, hy, -⟩ := admits_transfer.mp hadm
          exact absurd (hrow'.symm.trans hy) (by simp)
      | some y =>
          rw [hrow'] at h
          have hrecipient : ∀ {mv}, (Request.transfer w u data key).Admits db mv →
              y.currency = x.currency := by
            intro mv hadm
            obtain ⟨-, x', y', hx', -, hy', -, hc', -⟩ := admits_transfer.mp hadm
            cases hrow.symm.trans hx'
            cases hrow'.symm.trans hy'
            exact hc'
          refine raiseIf_ending h (error_handled (by decide)) hkept
            (fun hc mv hadm => hc (hsender hadm).2.1) (fun hc h => ?_)
          refine raiseIf_ending h (error_handled (by decide)) hkept
            (fun hc' mv hadm => hc' (hrecipient hadm)) (fun hc' h => ?_)
          refine raiseIf_ending h (error_handled (by decide)) hkept
            (fun hb mv hadm => absurd (hsender hadm).2.2 (not_le.mpr hb)) (fun hb h => ?_)
          exact book_ending (admits_transfer.mpr ⟨hne, x, y, hrow, not_not.mp hu,
            hrow', not_not.mp hc,
              not_not.mp hc', not_lt.mp hb, rfl⟩) hcol hunbound
            (fun txn => mute_commitKeyed txn key w) (fun h => commitKeyed_completes h) h hmet

end operations

end WalletLedger
