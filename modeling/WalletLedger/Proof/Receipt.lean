import WalletLedger.Proof.Cache
import WalletLedger.Proof.Statement

/-!
# The balance on a receipt

A money operation answers with its transaction and with the balance of the wallet in
the path. The transaction is fixed by the commit. The balance is not: it is read by
a statement of its own, after the commit has given up the lock, or when a key is
replayed at any later time. What other operations post to the wallet in between is in
the balance and not in the transaction.

- `posted` is what a commit adds to a wallet's legs.
- A session that has answered with a transaction of its own commits nothing after the
  statement that has read the balance (`Reread`).
- So the balance is the one right after the transaction plus what was posted since
  (`reachable_receipt`).
-/

namespace WalletLedger

open Isolation Prog

/-! ## What a commit posts to a wallet -/

/-- The leg a write inserts, if it is on wallet `id`. -/
def Write.legOn (id : Uuid) : Write → Option LedgerEntry
  | .insertEntry e => if e.walletId = some id then some e else none
  | _ => none

/-- The legs some commits have posted to wallet `id`. -/
def posted (id : Uuid) (cs : List LedgerCommit) : List LedgerEntry :=
  (cs.flatMap Commit.writes).filterMap (Write.legOn id)

/-- What they add up to. -/
def drift (id : Uuid) (cs : List LedgerCommit) : Int :=
  ((posted id cs).map LedgerEntry.signedAmount).sum

theorem legOn_of_area {w : Write} (h : w.area ≠ .book) (id : Uuid) : w.legOn id = none := by
  cases w with
  | insertEntry e => exact absurd rfl h
  | _ => rfl

theorem Movement.legOn_writes (mv : Movement) (m : Minted) (id : Uuid) :
    (mv.writes m).filterMap (Write.legOn id)
      = (mv.legs m).filter (fun e => decide (e.walletId = some id)) := by
  have hbalances : (mv.balances m).filterMap (Write.legOn id) = [] := by
    rw [List.filterMap_eq_nil_iff]
    intro w hw
    obtain ⟨_, -, rfl⟩ := List.mem_map.mp hw
    rfl
  have hlegs : ∀ es : List LedgerEntry, (es.map Write.insertEntry).filterMap (Write.legOn id)
      = es.filter (fun e => decide (e.walletId = some id)) := by
    intro es
    induction es with
    | nil => rfl
    | cons e es ih =>
        by_cases he : e.walletId = some id
        · simp [Write.legOn, he, ih]
        · simp [Write.legOn, he, ih]
  unfold Movement.writes
  rw [List.filterMap_append, List.filterMap_append, List.filterMap_cons,
    List.filterMap_cons, hbalances,
    hlegs]
  simp [Write.legOn]

section posted

variable [Runtime] {db db' : Db} {cs : List LedgerCommit}

/-- A legal commit appends what it posts to the legs of a wallet. -/
theorem Legal.entriesOfWallet {t : Request} {ws : List Write} (h : Legal t db ws) (id : Uuid) :
    (db.applyAll ws).entriesOfWallet id = db.entriesOfWallet id ++ ws.filterMap
    (Write.legOn id) := by
  rcases h.cases with ⟨u, -, rfl⟩ | ⟨x, -, -, rfl⟩ | ⟨mv, m, -, hok, hu, rfl⟩ | hw
  · exact (List.append_nil _).symm
  · exact (List.append_nil _).symm
  · rw [Movement.legOn_writes, Db.entriesOfWallet, (Movement.posted hok.shaped hu).entries,
      List.filter_append, Db.entriesOfWallet]
  · have hnone : ws.filterMap (Write.legOn id) = [] := by
      rw [List.filterMap_eq_nil_iff]
      exact fun w hmem => legOn_of_area (hw w hmem) id
    rw [hnone, List.append_nil, Db.entriesOfWallet, (sameBooks_applyAll db hw).entries,
      Db.entriesOfWallet]

theorem Chain.entriesOfWallet (h : Chain db cs db') (id : Uuid) :
    db'.entriesOfWallet id = db.entriesOfWallet id ++ posted id cs := by
  induction h with
  | nil => exact (List.append_nil _).symm
  | cons hl _ ih =>
      rw [ih, hl.entriesOfWallet id, posted, posted, List.flatMap_cons, List.filterMap_append,
        List.append_assoc]

end posted

/-! ## The read of the balance -/

/-- The last thing a session does with the database is to read a wallet back, and it has
found the row `x`. -/
def Reread (os : List LedgerObs) (x : Option Wallet) : Prop :=
  ∃ pre o post id y, os = pre ++ o :: post ∧ o.stmt = .refreshWallet id
    ∧ o.db.wallets.get id = some y ∧ x = some y ∧ ∀ d ∈ post, d.stmt ≠ .commit

/-- A lookup has found its key bound. -/
def Struck (os : List LedgerObs) : Prop :=
  ∃ o ∈ os, ∃ k txn, o.stmt = .selectTransactionByKey k ∧ o.db.transactionByKey k = some txn

theorem Reread.grow {os : List LedgerObs} {x : Option Wallet} (h : Reread os x)
    (os' os'' : List LedgerObs) (hlate : ∀ d ∈ os'', d.stmt ≠ .commit) :
    Reread (os' ++ os ++ os'') x := by
  obtain ⟨pre, o, post, id, y, rfl, hstmt, hrow, hx, hpost⟩ := h
  refine ⟨os' ++ pre, o, post ++ os'', id, y, by simp, hstmt, hrow, hx, fun d hd => ?_⟩
  rcases List.mem_append.mp hd with hd | hd
  · exact hpost d hd
  · exact hlate d hd

theorem Reread.after {os os' : List LedgerObs} {x : Option Wallet} (h : Reread os x) :
    Reread (os' ++ os) x := by
  have hgrow := h.grow os' [] (by simp)
  rwa [List.append_nil] at hgrow

theorem Struck.mono {os os' : List LedgerObs} (h : Struck os) (hsub : os ⊆ os') : Struck os' := by
  obtain ⟨o, ho, hrest⟩ := h
  exact ⟨o, hsub ho, hrest⟩

section reread

variable {i : Sid} {t : Request} {ws ws' : List Write} {os : List LedgerObs} {txn : Transaction}
  {x : Option Wallet}

/-- The tail of an operation that has committed. -/
theorem readBack_reread {id txnId : Uuid} (h : Trail engine i t (do
      let wallet : Wallet ← query (.refreshWallet id)
      let txn : Transaction ← query (.refreshTransaction txnId)
      pure (txn, some wallet)) [] os (ofExcept (.ok (txn, x))) ws') : Reread os x := by
  obtain ⟨y, os₁, os₂, ws₁, rfl, h₁, h₂⟩ := h.bind_ok
  obtain ⟨inp, db, aux, n, e, rfl, hrun, hans, -⟩ := h₁.perform_ended
  have heff : e = refreshes inp aux (db.wallets.get id) := (Option.some.inj hrun).symm
  subst heff
  have hlate := (h₂.uses (P := fun q => q ≠ .commit)
    (Uses.bind (.perform (by simp)) (fun _ => trivial))).1
  obtain ⟨txn', os₃, os₄, ws₂, -, -, h₃⟩ := h₂.bind_ok
  obtain ⟨-, hr, -⟩ := h₃.ret_inv
  have hx : x = some y := congrArg Prod.snd (Except.ok.inj (ofExcept_inj hr))
  exact ⟨[], _, os₂, id, y, rfl, rfl, (refreshes_ok hans.symm).1, hx, hlate⟩

/-- What a replay answers with was found. -/
theorem replay_struck {key : Option String} {id : Uuid} {r : Transaction × Option Wallet}
    (h : Trail engine i t (LedgerService.replay key id) [] os (ofExcept (.ok (some r))) ws') :
    Struck os := by
  unfold LedgerService.replay at h
  by_cases htruthy : LedgerService.truthy key = true
  · rw [if_pos htruthy] at h
    obtain ⟨found, os₁, os₂, ws₁, rfl, h₁, h₂⟩ := h.bind_ok
    obtain ⟨o, rfl, hstmt, ⟨f, -, hr, -⟩ | ⟨-, hr, -⟩⟩ :=
      read_ended (q := .selectTransactionByKey (key.getD ""))
      (a := fun db => db.transactionByKey (key.getD "")) (fun _ _ _ _ => rfl) h₁
    · exact absurd hr (by simp)
    cases found with
    | none =>
        obtain ⟨-, hr', -⟩ := h₂.ret_inv
        exact absurd (Except.ok.inj (ofExcept_inj hr')) (by simp)
    | some txn => exact ⟨o, by simp, _, txn, hstmt, (Except.ok.inj hr).symm⟩
  · rw [if_neg htruthy] at h
    obtain ⟨-, hr, -⟩ := h.ret_inv
    exact absurd (Except.ok.inj (ofExcept_inj hr)) (by simp)

/-- The end of a keyed operation: it has committed, or gone back and replayed. -/
theorem commitKeyed_reread {txn₀ : Transaction} {key : Option String} {id : Uuid}
    (h : Trail engine i t (LedgerService.commitKeyed txn₀ key id) ws os
      (ofExcept (.ok (txn, x))) ws') :
    Reread os x ∨ Struck os := by
  unfold LedgerService.commitKeyed at h
  rw [attempt_bind] at h
  obtain ⟨r, os₁, os₂, ws₁, rfl, h₁, h₂⟩ := h.handle_ended
  obtain ⟨o, rfl, -, rfl, hcommit⟩ := sealing_ended h₁
  rcases hcommit with ⟨f, -, rfl⟩ | ⟨-, rfl⟩
  · by_cases hf : f = .integrity
    · subst hf
      obtain ⟨_, os₃, os₄, ws₂, rfl, h₃, h₄⟩ := h₂.bind_ok
      obtain ⟨inp, db, aux, n, e, rfl, hrun, -, rfl⟩ := h₃.perform_ended
      cases hrun
      obtain ⟨r, os₅, os₆, ws₃, rfl, h₅, h₆⟩ := h₄.bind_ok
      cases r with
      | none => exact h₆.raise_ok.elim
      | some r => exact .inr ((replay_struck h₅).mono (fun d hd => by simp [hd]))
    · have hraise : Trail engine i t (Prog.raise (.db f)) [] os₂ (ofExcept (.ok (txn, x))) ws' := by
        cases f with
        | integrity => exact absurd rfl hf
        | _ => exact h₂
      exact hraise.raise_ok.elim
  · exact .inl (readBack_reread h₂).after

/-- What `book` goes on with is the end of it. -/
theorem book_ok {β : Type} {mv : Movement} {k : Transaction → Tx β} {b : β}
    (h : Trail engine i t (book mv k) ws os (ofExcept (.ok b)) ws') :
    ∃ txn os₁ os₂ ws₁, os = os₁ ++ os₂ ∧ Trail engine i t (k txn) ws₁ os₂
      (ofExcept (.ok b)) ws' := by
  obtain ⟨txn₁, os₁, os₁', ws₁, rfl, -, h₁⟩ := h.bind_ok
  obtain ⟨e₁, os₂, os₂', ws₂, rfl, -, h₂⟩ := h₁.bind_ok
  obtain ⟨e₂, os₃, os₃', ws₃, rfl, -, h₃⟩ := h₂.bind_ok
  obtain ⟨txn, os₄, os₄', ws₄, rfl, -, h₄⟩ := h₃.bind_ok
  obtain ⟨u, os₅, os₅', ws₅, rfl, -, h₅⟩ := h₄.bind_ok
  exact ⟨txn, os₁ ++ os₂ ++ os₃ ++ os₄ ++ os₅, os₅', ws₅, by simp, h₅⟩

/-- A keyed operation is a replay first. -/
theorem replaying_reread {key : Option String} {id : Uuid} {p : Tx (Transaction × Option Wallet)}
    (h : Trail engine i t (do
      match ← LedgerService.replay key id with
      | some r => pure r
      | none => p) [] os (ofExcept (.ok (txn, x))) ws')
    (hp : ∀ {ws₁ os'}, Trail engine i t p ws₁ os' (ofExcept (.ok (txn, x))) ws' →
      Reread os' x ∨ Struck os') : Reread os x ∨ Struck os := by
  obtain ⟨r, os₁, os₂, ws₁, rfl, h₁, h₂⟩ := h.bind_ok
  cases r with
  | some r => exact .inr ((replay_struck h₁).mono (List.subset_append_left _ _))
  | none =>
      rcases hp h₂ with hread | hstruck
      · exact .inl hread.after
      · exact .inr (hstruck.mono (List.subset_append_right _ _))

/-- What a keyed operation ends with once its checks have passed. -/
theorem booked_reread {mv : Movement} {key : Option String} {id : Uuid}
    (h : Trail engine i t (book mv (fun txn => LedgerService.commitKeyed txn key id)) ws os
      (ofExcept (.ok (txn, x))) ws') : Reread os x ∨ Struck os := by
  obtain ⟨txn₁, os₁, os₂, ws₁, rfl, h₁⟩ := book_ok h
  rcases commitKeyed_reread h₁ with hread | hstruck
  · exact .inl hread.after
  · exact .inr (hstruck.mono (List.subset_append_right _ _))

variable [Runtime]

theorem deposit_reread {w u : Uuid} {data : DepositRequest}
    (h : Trail engine i t (LedgerService.deposit w u data) [] os (ofExcept (.ok (txn, x))) ws') :
    Reread os x ∨ Struck os := by
  rw [deposit_eq] at h
  obtain ⟨row, os₁, os₁', ws₁, rfl, -, h₁⟩ := h.bind_ok
  cases row with
  | none => exact h₁.raise_ok.elim
  | some wallet =>
      obtain ⟨-, h₂⟩ := raiseIf_ok h₁
      obtain ⟨-, h₃⟩ := raiseIf_ok h₂
      obtain ⟨txn₁, os₂, os₂', ws₂, rfl, h₄⟩ := book_ok h₃
      obtain ⟨_, os₃, os₃', ws₃, rfl, hcommit, h₅⟩ := h₄.bind_ok
      obtain ⟨o, rfl, -, rfl, -⟩ := sealing_ended hcommit
      exact .inl (readBack_reread h₅).after.after.after

theorem withdraw_reread {w u : Uuid} {data : WithdrawalRequest} {key : Option String}
    (h : Trail engine i t (LedgerService.withdraw w u data key) [] os
      (ofExcept (.ok (txn, x))) ws') :
    Reread os x ∨ Struck os := by
  rw [withdraw_eq] at h
  refine replaying_reread h (fun h₁ => ?_)
  obtain ⟨row, os₁, os₁', ws₁, rfl, -, h₂⟩ := h₁.bind_ok
  cases row with
  | none => exact h₂.raise_ok.elim
  | some wallet =>
      obtain ⟨-, h₃⟩ := raiseIf_ok h₂
      obtain ⟨-, h₄⟩ := raiseIf_ok h₃
      obtain ⟨-, h₅⟩ := raiseIf_ok h₄
      rcases booked_reread h₅ with hread | hstruck
      · exact .inl hread.after
      · exact .inr (hstruck.mono (List.subset_append_right _ _))

theorem transfer_reread {w u : Uuid} {data : TransferRequest} {key : Option String}
    (h : Trail engine i t (LedgerService.transfer w u data key) [] os
      (ofExcept (.ok (txn, x))) ws') :
    Reread os x ∨ Struck os := by
  rw [transfer_eq] at h
  obtain ⟨-, h⟩ := raiseIf_ok h
  refine replaying_reread h (fun h₁ => ?_)
  obtain ⟨locked, os₁, os₁', ws₁, rfl, -, h₂⟩ := h₁.bind_ok
  suffices hend : Reread os₁' x ∨ Struck os₁' by
    rcases hend with hread | hstruck
    · exact .inl hread.after
    · exact .inr (hstruck.mono (List.subset_append_right _ _))
  cases hs : (locked.lookup w).join with
  | none =>
      simp only [hs] at h₂
      exact h₂.raise_ok.elim
  | some sender =>
      simp only [hs] at h₂
      obtain ⟨-, h₃⟩ := raiseIf_ok h₂
      cases hr : (locked.lookup data.recipientWalletId).join with
      | none =>
          simp only [hr] at h₃
          exact h₃.raise_ok.elim
      | some recipient =>
          simp only [hr] at h₃
          obtain ⟨-, h₄⟩ := raiseIf_ok h₃
          obtain ⟨-, h₅⟩ := raiseIf_ok h₄
          obtain ⟨-, h₆⟩ := raiseIf_ok h₅
          exact booked_reread h₆

/-- A money session that has answered with a wallet. -/
theorem program_reread {m : Request} {ws' : List Write} (hm : m.movesMoney = true)
    (h : Trail engine i t m.program [] os (ofExcept (.ok (.moved txn x))) ws') :
    Reread os x ∨ Struck os := by
  -- the route and the session around the service commit nothing
  have hroute : ∀ {p : Tx (Transaction × Option Wallet)} {ids : List Uuid},
      (∀ {os' : List LedgerObs} {ws₁ : List Write},
        Trail engine i t p [] os' (ofExcept (.ok (txn, x))) ws₁ → Reread os' x ∨ Struck os') →
      Trail engine i t (withSession (Reply.ofMoved <$> (do
        let r ← p
        BalanceCache.invalidate ids
        pure r))) [] os (ofExcept (.ok (.moved txn x))) ws' → Reread os x ∨ Struck os := by
    intro p ids hp h
    obtain ⟨os', o, ws₁, rfl, hclose, h₁⟩ := withSession_ended h
    obtain ⟨r, h₂, hr⟩ := h₁.map_ended
    cases r with
    | error e => exact absurd hr (by simp [Except.map])
    | ok r =>
        obtain ⟨a, os₁, os₂, ws₂, rfl, h₃, h₄⟩ := h₂.bind_ok
        have hlate := (h₄.uses (P := fun q => q ≠ .commit)
          (.bind (uses_invalidate (by simp)) (fun _ => trivial))).1
        obtain ⟨_, _, _, _, -, -, h₅⟩ := h₄.bind_ok
        obtain ⟨-, ha, -⟩ := h₅.ret_inv
        cases Except.ok.inj (ofExcept_inj ha)
        have heq : r = (txn, x) := by
          obtain ⟨txn', x'⟩ := r
          simp only [Except.map, Reply.ofMoved, Except.ok.injEq, Reply.moved.injEq] at hr
          exact Prod.ext hr.1.symm hr.2.symm
        subst heq
        rcases hp h₃ with hread | hstruck
        · refine .inl ?_
          rw [List.append_assoc]
          refine (hread.grow [] (os₂ ++ [o]) (fun d hd => ?_))
          rcases List.mem_append.mp hd with hd | hd
          · exact hlate d hd
          · rw [List.mem_singleton.mp hd, hclose]
            simp
        · exact .inr (hstruck.mono (fun d hd => by simp [hd]))
  cases m with
  | deposit w u data => exact hroute deposit_reread h
  | transfer w u data key => exact hroute transfer_reread h
  | withdraw w u data key => exact hroute withdraw_reread h
  | _ => exact absurd hm (by simp [Request.movesMoney])

end reread

/-! ## The response -/

variable [Runtime]

/-- The commit number `n` is the one that has applied a transaction. -/
def AppliedAt (cs : List LedgerCommit) (txn : Transaction) (n : Nat) : Prop :=
  n < cs.length ∧ (after cs n).transactions.get txn.id = none
    ∧ (after cs (n + 1)).transactions.get txn.id = some txn

omit [Runtime] in
instance (cs : List LedgerCommit) (txn : Transaction) (n : Nat) : Decidable (AppliedAt cs txn n) :=
  inferInstanceAs (Decidable (_ ∧ _))

/-- The signed sum of a wallet's legs after `n` commits. -/
def balanceAfter (cs : List LedgerCommit) (id : Uuid) (n : Nat) : Int :=
  (((after cs n).entriesOfWallet id).map LedgerEntry.signedAmount).sum

/-- A transaction has a leg on a wallet. -/
def HasLeg (db : Db) (txnId id : Uuid) : Prop :=
  ∃ e ∈ db.entriesOfTransaction txnId, e.walletId = some id

/-- A statement that reads a wallet for a response. -/
def Stmt.rereads (id : Uuid) (q : Stmt) : Prop := q = .refreshWallet id ∨ q = .selectWallet id

omit [Runtime] in
/-- What is not from `o` on is before it. -/
theorem mem_of_split {α : Type} {as bs cs ds : List α} {o d : α} (h : as ++ o :: bs = cs ++ d :: ds)
    (hd : d ∉ o :: bs) : o ∈ ds := by
  rcases List.append_eq_append_iff.mp h with ⟨l, -, hrest⟩ | ⟨l, -, hrest⟩
  · exact absurd (by rw [hrest]; simp) hd
  · cases l with
    | nil =>
        injection hrest with hdo
        exact absurd (by rw [hdo]; simp) hd
    | cons e l =>
        injection hrest with _ htail
        rw [htail]
        simp

section applied

variable {s : LedgerStore} {txn : Transaction}

/-- A transaction that is there has been applied by one of the commits so far. -/
theorem Settled.applied (h : Settled .empty s) {k : Nat} (hk : k ≤ s.commits.length)
    (htxn : (after s.commits k).transactions.get txn.id = some txn) :
    ∃ n, n < k ∧ AppliedAt s.commits txn n := by
  induction k with
  | zero => exact absurd htxn (by simp [after, Db.empty, Table.get])
  | succ k ih =>
      cases hbefore : (after s.commits k).transactions.get txn.id with
      | none => exact ⟨k, Nat.lt_succ_self k, hk, hbefore, htxn⟩
      | some txn' =>
          -- then it was there before, and is still the same
          have hkeep := (Evolves.final ⟨_, h.chain (Nat.le_succ k)⟩ hbefore).1
          have hsame : txn' = txn := Option.some.inj (hkeep.symm.trans htxn)
          obtain ⟨n, hn, happ⟩ := ih (Nat.le_of_succ_le hk) (hsame ▸ hbefore)
          exact ⟨n, Nat.lt_succ_of_lt hn, happ⟩

/-- A movement's own commit is the one that has applied its transaction. -/
theorem Settled.applied_own (h : Settled .empty s) {n : Nat} {i : Sid} {t : Request} {mv : Movement}
    {m : Minted} (hc : s.commits[n]? = some ⟨i, t, mv.writes m⟩) (hmv : t.Moves mv)
    (ht : t.movesMoney = true) : AppliedAt s.commits (mv.txn m) n := by
  obtain ⟨mv', m', -, -, hu, hws⟩ := (h.legal hc).movement ht
  have hunused : m.Unused (after s.commits n) := hu.ofWrites hws
  have hp := Movement.posted hmv.shaped hunused
  have hnext : after s.commits (n + 1) = (after s.commits n).applyAll (mv.writes m) := past_succ hc
  refine ⟨(List.getElem?_eq_some_iff.mp hc).1, hunused.txn, ?_⟩
  rw [hnext]
  exact Table.get_eq_some.mpr ⟨by rw [hp.transactions]; simp, rfl⟩

/-- What a wallet holds later is what it held, and what was posted since. -/
theorem Settled.balance_since (h : Settled .empty s) {m n : Nat}
    (hmn : m ≤ n) {id : Uuid} {x : Wallet}
    (hx : (after s.commits n).wallets.get id = some x) :
    x.availableBalance
      = balanceAfter s.commits id m + drift id ((s.commits.take n).drop m) := by
  have hbooks : Books (after s.commits n) := (h.chain (Nat.zero_le n)).books books_empty
  have hlegs : (after s.commits n).entriesOfWallet id = _ := (h.chain hmn).entriesOfWallet id
  rw [(hbooks.balanced.signed hx).1, hlegs, List.map_append, List.sum_append]
  rfl

/-- A transaction that has been applied keeps its legs. -/
theorem Settled.hasLeg_since (h : Settled .empty s) {n k : Nat} (hnk : n + 1 ≤ k)
    (happ : AppliedAt s.commits txn n) (id : Uuid) :
    HasLeg (after s.commits k) txn.id id ↔ HasLeg (after s.commits (n + 1)) txn.id id := by
  have hkeep : (after s.commits k).entriesOfTransaction txn.id
      = (after s.commits (n + 1)).entriesOfTransaction txn.id :=
    (Evolves.final ⟨_, h.chain hnk⟩ happ.2.2).2
  rw [HasLeg, HasLeg, hkeep]

end applied

/-- **The balance on a receipt** is that of a wallet the transaction is about, right after it was
applied, if and only if it has a leg on the wallet that is read and the legs posted to the wallet
since, and before the balance was read, add up to nothing. -/
theorem reachable_receipt (w : LedgerWorld) (h : ReachableFrom .empty w) (i : Sid) (t : Request)
    (ht : t.movesMoney = true) (txn : Transaction) (x : Wallet)
    (hs : ended w i = some (t, .ok (.moved txn (some x)))) :
    ∃ n, AppliedAt w.store.commits txn n
      ∧ ∃ o ∈ w.store.script i, o.stmt.rereads t.path ∧ o.db.wallets.get t.path = some x
        ∧ n < o.clock
        ∧ (HasLeg (after w.store.commits (n + 1)) txn.id t.path
            ∧ x.availableBalance = balanceAfter w.store.commits t.path (n + 1)
          ↔ HasLeg o.db txn.id t.path
            ∧ drift t.path ((w.store.commits.take o.clock).drop (n + 1)) = 0) := by
  have hset := reachable_settled h
  -- the balance is that of the state in which it was read
  suffices hread : ∃ n, AppliedAt w.store.commits txn n
      ∧ ∃ o ∈ w.store.script i, o.stmt.rereads t.path ∧ o.db.wallets.get t.path = some x
        ∧ n < o.clock by
    obtain ⟨n, happ, o, ho, hstmt, hrow, hn⟩ := hread
    refine ⟨n, happ, o, ho, hstmt, hrow, hn, ?_⟩
    have hdb : o.db = after w.store.commits o.clock := (h.past.2 o (mem_script.mp ho).1).2
    rw [hdb, hset.hasLeg_since hn happ, hset.balance_since (m := n + 1) hn (hdb ▸ hrow)]
    refine and_congr_right (fun _ => ?_)
    constructor
    · intro hsame
      omega
    · intro hzero
      omega
  generalize hr : (Except.ok (Reply.moved txn (some x)) : Except Exn Reply) = r at hs
  cases reachable_moved h ht hs with
  | raised => exact absurd hr (by simp)
  | replayed key reads misses hit read quiet =>
      rename_i k txn' pre o o'
      injection hr with hr
      injection hr with htxn hrow
      subst htxn
      have hmem : ∀ d ∈ [o, o'], d ∈ w.store.script i := by
        intro d hd
        obtain ⟨hd, hi, -⟩ := mem_readsOf.mp (reads ▸ List.mem_append_right pre hd)
        exact mem_script.mpr ⟨hd, hi⟩
      have hpast : ∀ d ∈ [o, o'], d.clock ≤ w.store.commits.length
          ∧ d.db = after w.store.commits d.clock :=
        fun d hd => h.past.2 d (mem_script.mp (hmem d hd)).1
      -- the lookup comes before the read
      have horder : o.clock ≤ o'.clock := by
        have hsub : [o, o'].Sublist w.store.trace :=
          (List.sublist_append_right pre _).trans (reads ▸ List.filter_sublist)
        exact (List.pairwise_cons.mp (h.clocks.sublist hsub)).1 o' (by simp)
      have hfound := (Db.transactionByKey_some hit.2.2).1
      rw [(hpast o (by simp)).2] at hfound
      obtain ⟨n, hn, happ⟩ := hset.applied (hpast o (by simp)).1 hfound
      exact ⟨n, happ, o', hmem o' (by simp), .inr read.1, hrow.symm, Nat.lt_of_lt_of_le hn horder⟩
  | own reads moves commit id owner =>
      rename_i mv m y
      injection hr with hr
      injection hr with htxn hy
      cases Option.some.inj hy
      subst htxn
      obtain ⟨n, hn⟩ := List.getElem?_of_mem commit
      refine ⟨n, hset.applied_own hn moves ht, ?_⟩
      obtain ⟨ws, htrail⟩ := ended_trail h hs (Request.next_money ht)
      rcases program_reread ht htrail with hread | ⟨d, hd, k, txn', hstmt, hfound⟩
      · obtain ⟨pre, o, post, id', y, hsplit, hstmt, hrow, hy, hlate⟩ := hread
        cases Option.some.inj hy
        have hid : id' = t.path := (Table.key_of_get hrow).symm.trans id
        subst hid
        have ho : o ∈ w.store.script i := by rw [hsplit]; simp
        refine ⟨o, ho, .inl hstmt, hrow, ?_⟩
        -- the session's `commit` is before the read, because none is after it
        obtain ⟨pre', d, post', htrace, hsid, -, hcommit, -, hclock⟩ := commit_marked h hn
        have hscript : w.store.script i = pre'.filter (fun o => decide (o.sid = i))
            ++ d :: post'.filter (fun o => decide (o.sid = i)) := by
          rw [Store.script, htrace, List.filter_append, List.filter_cons,
            if_pos (by simpa using hsid)]
        have hearly : d ∉ o :: post := by
          intro hd
          rcases List.mem_cons.mp hd with rfl | hd
          · exact absurd (hcommit.symm.trans hstmt) (by simp)
          · exact hlate d hd hcommit
        exact hclock o (List.mem_filter.mp (mem_of_split (hsplit.symm.trans hscript) hearly)).1
      · -- an operation of its own has found its key unbound
        obtain ⟨hmem, hi⟩ := mem_script.mp hd
        obtain ⟨k', -, hstmt', -, hnone⟩ := reads d (mem_readsOf.mpr ⟨hmem, hi, by rw [hstmt]; rfl⟩)
        rw [hstmt] at hstmt'
        cases hstmt'
        rw [hfound] at hnone
        exact absurd hnone (by simp)

omit [Runtime] in
theorem opening_receipt : ∃ w, (@ReachableFrom plainRuntime .empty w
    ∧ ended w 4 = some (.deposit 31 12 (depositOf 100),
        .ok (.moved ⟨51, .deposit, .completed, "INR", none⟩ (some ⟨31, 12, "INR", 100, 0, 0, 0⟩))))
    ∧ ∃ n, AppliedAt w.store.commits ⟨51, .deposit, .completed, "INR", none⟩ n
      ∧ ∃ o ∈ w.store.script 4, o.stmt.rereads 31
        ∧ o.db.wallets.get 31 = some ⟨31, 12, "INR", 100, 0, 0, 0⟩ ∧ n < o.clock
        ∧ (HasLeg (after w.store.commits (n + 1)) 51 31
            ∧ 100 = balanceAfter w.store.commits 31 (n + 1)
          ↔ HasLeg o.db 51 31 ∧ drift 31 ((w.store.commits.take o.clock).drop (n + 1)) = 0) := by
  obtain ⟨w, hr, hw⟩ := exists_runPlain .empty opening (fun w => ended w 4)
    (v := some (.deposit 31 12 (depositOf 100),
      .ok (.moved ⟨51, .deposit, .completed, "INR", none⟩ (some ⟨31, 12, "INR", 100, 0, 0, 0⟩))))
    (by decide +kernel)
  exact ⟨w, ⟨hr, hw⟩, @reachable_receipt plainRuntime w hr 4 (.deposit 31 12 (depositOf 100)) rfl
    ⟨51, .deposit, .completed, "INR", none⟩ ⟨31, 12, "INR", 100, 0, 0, 0⟩ hw⟩

/-- Between the commit of a transfer and its read of the balance, the sender is paid. -/
def paidMeanwhile : List LedgerAction :=
  opening ++ [.spawn (.transfer 31 12 (transferOf 41 30) none)] ++ advance 5 12 60
    ++ [.spawn (.deposit 31 12 (depositOf 50))] ++ advance 6 14 80 ++ advance 5 4 100

omit [Runtime] in
/-- The transfer of 30 out of 100 is answered with a balance of 120. -/
theorem paidMeanwhile_receipt : ∃ w, @ReachableFrom plainRuntime .empty w
    ∧ ended w 5 = some (.transfer 31 12 (transferOf 41 30) none,
        .ok (.moved ⟨62, .transfer, .completed, "INR", none⟩ (some ⟨31, 12, "INR", 120, 0, 0, 0⟩)))
    ∧ AppliedAt w.store.commits ⟨62, .transfer, .completed, "INR", none⟩ 5
    ∧ balanceAfter w.store.commits 31 6 = 70 := by
  obtain ⟨w, hr, hw⟩ := exists_runPlain .empty paidMeanwhile (fun w => (ended w 5,
      decide (AppliedAt w.store.commits ⟨62, .transfer, .completed, "INR", none⟩ 5),
      balanceAfter w.store.commits 31 6))
    (v := (some (.transfer 31 12 (transferOf 41 30) none,
      .ok (.moved ⟨62, .transfer, .completed, "INR", none⟩ (some ⟨31, 12, "INR", 120, 0, 0, 0⟩))),
      true, 70)) (by decide +kernel)
  exact ⟨w, hr, congrArg Prod.fst hw, of_decide_eq_true (congrArg (fun v => v.2.1) hw),
    congrArg (fun v => v.2.2) hw⟩

end WalletLedger
