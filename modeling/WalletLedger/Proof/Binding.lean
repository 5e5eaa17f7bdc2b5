import WalletLedger.Proof.Effects
import WalletLedger.Proof.Trails

/-!
# Bound keys

Once an idempotency key is bound, every later transfer or withdrawal with that key
finds it at its first statement. What is left of the program from there on is a
read of the path wallet, the invalidation and the close: nothing that waits for a
lock, nothing that writes, and four statements in all.
-/

namespace WalletLedger

open Isolation Prog

variable [Runtime]

/-- A request that goes by the key `k`. A transfer to the same wallet is refused before
its key is looked at. -/
def Request.Repeats (k : String) : Request → Prop
  | .transfer w _ data key => w ≠ data.recipientWalletId ∧ key = some k
  | .withdraw _ _ _ key => key = some k
  | _ => False

/-! ## The program of a repeated request -/

omit [Runtime] in
theorem replay_truthy {k : String} (hk : k ≠ "") (id : Uuid) :
    LedgerService.replay (some k) id = (do
      let existing ← TransactionRepository.getByIdempotencyKey k
      match existing with
      | some txn => do
          let wallet ← WalletRepository.getById id
          pure (some (txn, wallet))
      | none => pure none) := by
  unfold LedgerService.replay
  rw [if_pos (by simpa [LedgerService.truthy] using hk)]
  rfl

/-- **A request that finds its key bound** reads the path wallet, invalidates and closes. -/
theorem repeats_program {k : String} {q : Request} (hq : q.Repeats k) (hk : k ≠ "") :
    ∃ K, q.program = .call (.selectTransactionByKey k) K ∧ (∀ e, K (.error e) = closing (.error e))
      ∧ ∀ t, ∃ K', K (.ok (some t)) = .call (.selectWallet q.path) K'
        ∧ (∀ e, K' (.error e) = closing (.error e))
        ∧ ∀ wallet, ∃ ids K'', K' (.ok wallet) = .call (.cacheDelete ids) K''
          ∧ ∀ x, K'' x = closing (.ok (.moved t wallet)) := by
  cases q with
  | transfer w u data key =>
      obtain ⟨hne, rfl⟩ := hq
      have hpass : (raiseIf (w = data.recipientWalletId) (.sameWalletTransfer w) :
          Tx Unit) = .ret () :=
        if_neg hne
      unfold Request.program Routes.transfer LedgerService.transfer
      simp only [hpass, replay_truthy hk]
      refine ⟨_, rfl, fun e => rfl, fun t => ⟨_, rfl, fun e => rfl, fun wallet => ⟨_, _, rfl, ?_⟩⟩⟩
      intro x
      cases x with
      | ok a => rfl
      | error e => rfl
  | withdraw w u data key =>
      have hkey : key = some k := hq
      subst hkey
      unfold Request.program Routes.withdraw LedgerService.withdraw
      simp only [replay_truthy hk]
      refine ⟨_, rfl, fun e => rfl, fun t => ⟨_, rfl, fun e => rfl, fun wallet => ⟨_, _, rfl, ?_⟩⟩⟩
      intro x
      cases x with
      | ok a => rfl
      | error e => rfl
  | _ => exact absurd hq (by simp [Request.Repeats])

/-! ## Where such a session can be -/

/-- Statements that take no lock. -/
def Stmt.lockFree : Stmt → Bool
  | .selectTransactionByKey _ | .selectWallet _ | .cacheDelete _ | .close => true
  | _ => false

omit [Runtime] in
theorem run_lockFree {q : Stmt} (hq : q.lockFree = true) (inp : Inp) (i : Sid)
    (db : Db) (o : Outside) :
    ∃ e, run q inp i db o = some e ∧ e.locks = [] := by
  -- it is there to change nothing, and selects nothing `FOR UPDATE`
  have hnone : ∀ e, run q inp i db o = some e → q.write inp o = none →
      (∀ id, q ≠ .selectWalletForUpdate id) → e.locks = [] := by
    intro e he hw hsel
    refine List.eq_nil_iff_forall_not_mem.mpr (fun r hr => ?_)
    rcases run_locks he r hr with ⟨w, hw', -⟩ | ⟨id, hq', -⟩
    · exact absurd (hw.symm.trans hw') (by simp)
    · exact hsel id hq'
  cases q with
  | selectTransactionByKey k => exact ⟨_, rfl, hnone _ rfl rfl (by simp)⟩
  | selectWallet id => exact ⟨_, rfl, hnone _ rfl rfl (by simp)⟩
  | cacheDelete ids => exact ⟨_, rfl, hnone _ rfl rfl (by simp)⟩
  | close => exact ⟨_, rfl, hnone _ rfl rfl (by simp)⟩
  | _ => exact absurd hq (by simp [Stmt.lockFree])

/-- A session that has executed `os` and has `p` left is on its way to returning `t`. -/
structure OnTheWay (t : Transaction) (os : List LedgerObs) (p : Tx Reply)
    (ws : List Write) : Prop where
  returns : ∀ r, outcome p = some r →
    (∃ wallet, r = .ok (.moved t wallet)) ∨ ∃ o ∈ os, o.inp.fault ≠ none
  statements : ∀ o ∈ os, o.stmt.lockFree = true
  next : ∀ q K, p = .call q K → q.lockFree = true
  pending : ws = []
  length : os.length ≤ 4
  last : os.length = 4 → (outcome p).isSome = true

omit [Runtime] in
/-- On the way out. -/
theorem OnTheWay.closing {i : Sid} {q : Request} {t : Transaction} {r : Except Exn Reply}
    (pre : List LedgerObs) {os : List LedgerObs} {p : Tx Reply} {ws : List Write}
    (h : Trail engine i q (closing r) [] os p ws)
    (hr : (∃ wallet, r = .ok (.moved t wallet)) ∨ ∃ o ∈ pre, o.inp.fault ≠ none)
    (hpre : ∀ o ∈ pre, o.stmt.lockFree = true) (hlen : pre.length ≤ 3) :
    OnTheWay t (pre ++ os) p ws := by
  obtain ⟨hws, ⟨rfl, rfl⟩ | ⟨o, rfl, hclose, rfl⟩⟩ := closing_inv h
  · rw [List.append_nil]
    refine ⟨fun r' hr' => absurd hr'
      (by simp [WalletLedger.closing, query, perform, outcome, bind_eq]),
      hpre, ?_, hws, by omega, fun h4 => by omega⟩
    intro q' K hp
    cases hp
    rfl
  · refine ⟨fun r' hr' => ?_, fun o' ho' => ?_, fun q' K hp => ?_, hws, by simp; omega, fun _ => ?_⟩
    · rw [outcome_ofExcept] at hr'
      cases hr'
      rcases hr with hr | ⟨o', ho', hf⟩
      · exact .inl hr
      · exact .inr ⟨o', List.mem_append_left _ ho', hf⟩
    · rcases List.mem_append.mp ho' with ho' | ho'
      · exact hpre o' ho'
      · rw [List.mem_singleton.mp ho', hclose]
        rfl
    · cases r with
      | ok a => exact absurd hp (by simp [Prog.ofExcept])
      | error e => exact absurd hp (by simp [Prog.ofExcept])
    · rw [outcome_ofExcept]
      rfl

omit [Runtime] in
/-- Between two statements. -/
theorem OnTheWay.between {t : Transaction} {os : List LedgerObs} {q : Stmt}
    {K : Except Exn q.Ans → Tx Reply} (hq : q.lockFree = true)
    (hos : ∀ o ∈ os, o.stmt.lockFree = true) (hlen : os.length ≤ 3) :
    OnTheWay t os (.call q K) [] := by
  refine ⟨fun r hr => absurd hr (by simp [outcome]), hos, ?_, rfl, by omega, fun h4 => by omega⟩
  intro q' K' hp
  cases hp
  exact hq

/-- **From its first lookup on, a repeated request is on the way to the transaction its
key is bound to.** -/
theorem repeats_trail {k : String} {q : Request} (hq : q.Repeats k) (hk : k ≠ "") {i : Sid}
    {t : Transaction} {os : List LedgerObs} {p : Tx Reply} {ws : List Write}
    (h : Trail engine i q q.program [] os p ws)
    (hbound : ∀ o ∈ os, o.stmt = .selectTransactionByKey k → o.db.transactionByKey k = some t) :
    OnTheWay t os p ws := by
  obtain ⟨K, hprog, hKe, hK⟩ := repeats_program hq hk
  obtain ⟨K', hK', hKe', hK''⟩ := hK t
  rw [hprog] at h
  rcases read_inv (fun _ _ _ _ => rfl) h with ⟨rfl, rfl, rfl⟩ | ⟨o₁, os₁, rfl, hq₁, h₁⟩
  · exact .between rfl (by simp) (by simp)
  have hfree₁ : o₁.stmt.lockFree = true := by rw [hq₁]; rfl
  rcases h₁ with ⟨f, hf, h₁⟩ | ⟨-, h₁⟩
  · -- the lookup fails
    rw [hKe] at h₁
    exact .closing [o₁] h₁ (.inr ⟨o₁, by simp, by simp [hf]⟩) (by simpa using hfree₁) (by simp)
  rw [hbound o₁ (by simp) hq₁, hK'] at h₁
  rcases read_inv (fun _ _ _ _ => rfl) h₁ with ⟨rfl, rfl, rfl⟩ | ⟨o₂, os₂, rfl, hq₂, h₂⟩
  · exact .between rfl (by simpa using hfree₁) (by simp)
  have hfree₂ : o₂.stmt.lockFree = true := by rw [hq₂]; rfl
  rcases h₂ with ⟨f, hf, h₂⟩ | ⟨-, h₂⟩
  · -- the read of the path wallet fails
    rw [hKe'] at h₂
    exact .closing [o₁, o₂] h₂ (.inr ⟨o₂, by simp, by simp [hf]⟩)
      (by simpa using ⟨hfree₁, hfree₂⟩) (by simp)
  obtain ⟨ids, K'', hdel, hclose⟩ := hK'' (o₂.db.wallets.get q.path)
  rw [hdel] at h₂
  rcases cache_inv (f := fun o => o.delete ids) (fun _ _ _ _ => rfl) h₂ with
    ⟨rfl, rfl, rfl⟩ | ⟨o₃, os₃, rfl, hq₃, h₃⟩
  · exact .between rfl (by simpa using ⟨hfree₁, hfree₂⟩) (by simp)
  have hfree₃ : o₃.stmt.lockFree = true := by rw [hq₃]; rfl
  have hout : Trail engine i q (closing (.ok (.moved t (o₂.db.wallets.get q.path))))
      [] os₃ p ws := by
    rcases h₃ with ⟨-, h₃⟩ | ⟨-, h₃⟩
    · rw [hclose] at h₃
      exact h₃
    · rw [hclose] at h₃
      exact h₃
  exact .closing [o₁, o₂, o₃] hout (.inl ⟨_, rfl⟩)
    (by simpa using ⟨hfree₁, hfree₂, hfree₃⟩) (by simp)

/-! ## The binding -/

omit [Runtime] in
/-- The transaction a key is bound to is the one the lookup finds. -/
theorem Books.bound {db : Db} (h : Books db) {k : String} {t : Transaction}
    (ht : t ∈ db.transactions.rows) (hk : t.idempotencyKey = some k) :
    db.transactionByKey k = some t := by
  cases hfind : db.transactionByKey k with
  | none =>
      have hnone := List.find?_eq_none.mp hfind t ht
      exact absurd (by simpa using hk) hnone
  | some t' =>
      obtain ⟨hget, hk'⟩ := Db.transactionByKey_some hfind
      rw [h.keys t' (Table.mem_of_get hget) t ht k hk' hk]

/-- How a session that repeats a bound key stands in a world. -/
structure Answering (w : LedgerWorld) (j : Sid) (p : Tx Reply) (t : Transaction) : Prop where
  /-- It returns `t`, unless the database fails it. -/
  returns : ∀ r, outcome p = some r → (∃ wallet, r = .ok (.moved t wallet))
    ∨ ∃ o ∈ w.store.script j, o.inp.fault ≠ none
  /-- It has committed nothing and has nothing to commit. -/
  commits : ∀ c ∈ w.store.commits, c.sid ≠ j
  pending : w.store.pending j = []
  /-- It never waits. -/
  moves : outcome p = none → ∀ inp, ∃ w', system.step w (.exec j inp) = some w'
  /-- It ends with its fourth statement at the latest. -/
  length : (w.store.script j).length ≤ 4
  last : (w.store.script j).length = 4 → (outcome p).isSome = true

/-- **A key is bound once and for all, and every later request with it returns the
transaction it is bound to and changes nothing.** -/
theorem reachable_bound (w₁ w₂ : LedgerWorld) (h : ReachableFrom .empty w₁)
    (hl : Later system w₁ w₂) (k : String) (hk : k ≠ "") :
    (∀ t ∈ w₂.store.db.transactions.rows, ∀ t' ∈ w₂.store.db.transactions.rows,
      t.idempotencyKey = some k → t'.idempotencyKey = some k → t = t')
    ∧ ∀ t, w₁.store.db.transactionByKey k = some t →
        w₂.store.db.transactionByKey k = some t
        ∧ ∀ j q p, w₁.next ≤ j → q.Repeats k → w₂.sess j = some (q, p) → Answering w₂ j p t := by
  have h₂ : ReachableFrom .empty w₂ := h.later hl
  have hbooks := reachable_books h₂
  refine ⟨fun t ht t' ht' => hbooks.keys t ht t' ht' k, fun t ht => ?_⟩
  obtain ⟨hget, hkey⟩ := Db.transactionByKey_some ht
  obtain ⟨hlen, hpast⟩ := hl.past h
  -- the binding holds in every state from `w₁` on
  have hbound : ∀ n, w₁.store.commits.length ≤ n →
      (w₂.store.past engine .empty n).transactionByKey k = some t := by
    intro n hn
    have hchain := (reachable_settled h₂).chain hn
    have hev : Evolves w₁.store.db (w₂.store.past engine .empty n) := by
      rw [hpast]
      exact ⟨_, hchain⟩
    have hall := (reachable_settled h₂).chain (Nat.zero_le n)
    exact Books.bound (Chain.books hall books_empty) (Table.mem_of_get (hev.final hget).1) hkey
  refine ⟨by rw [h₂.past.1]; exact hbound _ hlen, fun j q p hj hq hsess => ?_⟩
  have hnext : q.next = none := by
    cases q with
    | transfer | withdraw => rfl
    | _ => exact absurd hq (by simp [Request.Repeats])
  have hway : OnTheWay t (w₂.store.script j) p (w₂.store.pending j) := by
    refine repeats_trail hq hk (h₂.trail.2 j q p hsess hnext) (fun o ho _ => ?_)
    rw [(h₂.past.2 o (mem_script.mp ho).1).2]
    exact hbound _ (hl.script h hj ho).1
  refine ⟨hway.returns, fun c hc hsid => ?_, hway.pending, fun hout inp => ?_,
    hway.length, hway.last⟩
  · obtain ⟨o, ho, hcommit⟩ := commit_script h₂ c hc
    rw [hsid] at ho
    have hfree := hway.statements o ho
    rw [hcommit] at hfree
    exact absurd hfree (by simp [Stmt.lockFree])
  · cases p with
    | ret a => exact absurd hout (by simp [outcome])
    | raise e => exact absurd hout (by simp [outcome])
    | call q' K =>
        obtain ⟨e, he, hlocks⟩ := run_lockFree (hway.next q' K rfl) inp j
          (w₂.store.view engine j) w₂.store.aux
        exact step_lockFree hsess he hlocks

/-- A withdrawal with a key. -/
def spent : List LedgerAction :=
  opening ++ [.spawn (.withdraw 31 12 (withdrawalOf 80) (some "k"))] ++ advance 5 15 70

/-- It is repeated when the money is gone. -/
def again : List LedgerAction :=
  [.spawn (.withdraw 31 12 (withdrawalOf 80) (some "k"))] ++ advance 6 4 90

omit [Runtime] in
theorem again_bound : ∃ w₁ w₂, (@ReachableFrom plainRuntime .empty w₁
    ∧ Later (@system plainRuntime) w₁ w₂ ∧ w₁.next = 6
    ∧ w₁.store.db.transactionByKey "k" = some ⟨72, .withdrawal, .completed, "INR", some "k"⟩
    ∧ ended w₂ 6 = some (.withdraw 31 12 ⟨80, "INR", by decide, by decide⟩ (some "k"),
        .ok (.moved ⟨72, .withdrawal, .completed, "INR", some "k"⟩
          (some ⟨31, 12, "INR", 20, 0, 0, 0⟩))))
    ∧ (∀ t ∈ w₂.store.db.transactions.rows, ∀ t' ∈ w₂.store.db.transactions.rows,
        t.idempotencyKey = some "k" → t'.idempotencyKey = some "k" → t = t')
    ∧ ∀ t, w₁.store.db.transactionByKey "k" = some t →
        w₂.store.db.transactionByKey "k" = some t
        ∧ ∀ j q p, w₁.next ≤ j → q.Repeats "k" → w₂.sess j = some (q, p) →
            @Answering plainRuntime w₂ j p t := by
  obtain ⟨w₁, w₂, h, hl, hw⟩ := exists_laterPlain .empty spent again
    (fun w₁ w₂ => (w₁.next, w₁.store.db.transactionByKey "k", ended w₂ 6))
    (v := (6, some ⟨72, .withdrawal, .completed, "INR", some "k"⟩,
      some (.withdraw 31 12 ⟨80, "INR", by decide, by decide⟩ (some "k"),
        .ok (.moved ⟨72, .withdrawal, .completed, "INR", some "k"⟩
          (some ⟨31, 12, "INR", 20, 0, 0, 0⟩)))))
    (by decide +kernel)
  exact ⟨w₁, w₂, ⟨h, hl, congrArg Prod.fst hw, congrArg (fun x => x.2.1) hw,
    congrArg (fun x => x.2.2) hw⟩,
    @reachable_bound plainRuntime w₁ w₂ h hl "k" (by decide)⟩

end WalletLedger
