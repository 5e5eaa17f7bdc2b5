import WalletLedger.App.Responses
import WalletLedger.Proof.Cache
import WalletLedger.Proof.Serial
import WalletLedger.Proof.Single

/-!
# Other people's wallets

Nobody can tell somebody else's wallet from one that does not exist. Every endpoint
that names a wallet tests whether it is the requester's before anything else about it
can matter, on every path the row can be reached by: the cache, a plain read, a locked
read, a locked pair. What a requester is answered about a wallet that is not theirs is
therefore a matter of the request alone.
-/

namespace WalletLedger

open Isolation Prog

/-- The wallet is not the requester's: not there, or owned by somebody else, and so is
whatever the cache has of it. -/
structure Barred (id u : Uuid) (s : LedgerStore) : Prop where
  row : ∀ x, s.db.wallets.get id = some x → x.userId ≠ u
  entry : ∀ c, s.aux.cache id = some c → c.userId ≠ u

/-- No operation has been committed under a key. -/
def Unspent (key : Option String) (db : Db) : Prop := ∀ k ∈ key, db.transactionByKey k = none

/-- A requester calls one of the five endpoints on a wallet, with no key or an unbound one. -/
inductive Request.On (id u : Uuid) (db : Db) : Request → Prop where
  | getBalance : Request.On id u db (.getBalance id u)
  | listTransactions (limit offset : Nat) : Request.On id u db (.listTransactions id limit offset u)
  | deposit (data : DepositRequest) : Request.On id u db (.deposit id u data)
  | transfer (data : TransferRequest) (key : Option String) (h : Unspent key db) :
      Request.On id u db (.transfer id u data key)
  | withdraw (data : WithdrawalRequest) (key : Option String) (h : Unspent key db) :
      Request.On id u db (.withdraw id u data key)

/-- What such a request is answered about a wallet that is not the requester's. -/
def Request.refusal : Request → Response
  | .transfer id _ data _ =>
      if id = data.recipientWalletId then .error 422 "Cannot transfer to the same wallet."
      else .error 404 "Wallet not found."
  | _ => .error 404 "Wallet not found."

section single

variable {i : Sid} {t : Request} {inp : Inp} {s : LedgerStore} {id u : Uuid}

/-- A locked read. -/
theorem solo_getWithLock (id : Uuid) (h : Solo i [] s) (hf : inp.fault = none) :
    ∃ s', runAlone engine i t inp (WalletRepository.getWithLock id) s
        = some (.ok (s.db.wallets.get id), s') ∧ Solo i [] s' ∧ s'.db = s.db ∧ s'.aux = s.aux := by
  have he : readsLocked inp s.aux (s.db.wallets.get id) (.wallet id)
      = { locks := if (s.db.wallets.get id).isSome then [.wallet id] else [],
          ans := .ok (s.db.wallets.get id), aux := s.aux } := by
    unfold readsLocked
    rw [hf]
  have hrun : run (.selectWalletForUpdate id) inp i (s.db.applyAll []) s.aux
      = some (readsLocked inp s.aux (s.db.wallets.get id) (.wallet id)) := rfl
  rw [he] at hrun
  exact solo_stay (t := t) (q := .selectWalletForUpdate id) h hrun rfl

/-- Several locked reads. -/
theorem solo_lockEach (ids : List Uuid) (h : Solo i [] s) (hf : inp.fault = none) :
    ∃ s', runAlone engine i t inp (WalletRepository.lockEach ids) s
        = some (.ok (ids.map (fun id => (id, s.db.wallets.get id))), s') ∧ Solo i [] s'
      ∧ s'.db = s.db := by
  induction ids generalizing s with
  | nil => exact ⟨s, rfl, h, rfl⟩
  | cons id ids ih =>
      obtain ⟨s₁, h₁, hs₁, hdb₁, -⟩ := solo_getWithLock (t := t) id h hf
      obtain ⟨s₂, h₂, hs₂, hdb₂⟩ := ih hs₁
      rw [hdb₁] at h₂ hdb₂
      exact ⟨s₂, (runAlone_bind h₁).trans (runAlone_bind h₂), hs₂, hdb₂⟩

/-- An unbound key is nothing to replay. -/
theorem solo_replay {key : Option String} (path : Uuid) (h : Solo i [] s) (hf : inp.fault = none)
    (hkey : Unspent key s.db) :
    ∃ s', runAlone engine i t inp (LedgerService.replay key path) s = some (.ok none, s')
      ∧ Solo i [] s' ∧ s'.db = s.db := by
  unfold LedgerService.replay
  by_cases htruthy : LedgerService.truthy key = true
  · rw [if_pos htruthy]
    cases key with
    | none => exact absurd htruthy (by simp [LedgerService.truthy])
    | some k =>
        have hmiss : s.db.transactionByKey k = none := hkey k rfl
        obtain ⟨s', hs', hrest, hdb, -⟩ :=
          solo_reads (t := t) (q := .selectTransactionByKey k) h hf rfl
        rw [Db.applyAll_nil, hmiss] at hs'
        exact ⟨s', runAlone_bind hs', hrest, hdb⟩
  · rw [if_neg htruthy]
    exact ⟨s, rfl, h, rfl⟩

theorem runAlone_raiseIf {β : Type} {c : Prop} [Decidable c] {e : Exn} {f : Unit → Tx β} :
    runAlone engine i t inp (raiseIf c e >>= f) s
      = if c then some (.error e, s) else runAlone engine i t inp (f ()) s := by
  unfold raiseIf
  by_cases hc : c
  · rw [if_pos hc, if_pos hc]
    rfl
  · rw [if_neg hc, if_neg hc]
    rfl

end single

/-! ## The services -/

section services

variable [Runtime] {i : Sid} {t : Request} {inp : Inp} {s : LedgerStore} {id u : Uuid}

/-- The two exceptions the routes answer alike. -/
def Denies (id : Uuid) (e : Exn) : Prop := e = .walletNotFound id ∨ e = .walletAccessDenied id

/-- The service ends with one of them, and nothing has been written. -/
def Denied (i : Sid) (t : Request) (inp : Inp) (id : Uuid) {β : Type} (p : Tx β) (s : LedgerStore) :
    Prop :=
  ∃ e s', runAlone engine i t inp p s = some (.error e, s') ∧ Denies id e
    ∧ Solo i [] s' ∧ s'.db = s.db

theorem denied_deposit (h : Solo i [] s) (hf : inp.fault = none) (hb : Barred id u s)
    (data : DepositRequest) : Denied i t inp id (LedgerService.deposit id u data) s := by
  obtain ⟨s₁, h₁, hs₁, hdb₁, -⟩ := solo_getWithLock (t := t) id h hf
  cases hrow : s.db.wallets.get id with
  | none =>
      rw [hrow] at h₁
      exact ⟨_, s₁, runAlone_bind h₁, .inl rfl, hs₁, hdb₁⟩
  | some x =>
      rw [hrow] at h₁
      have hx := hb.row x hrow
      refine ⟨_, s₁, (runAlone_bind h₁).trans (runAlone_raiseIf.trans (if_pos hx)),
        .inr rfl, hs₁, hdb₁⟩

theorem denied_withdraw (h : Solo i [] s) (hf : inp.fault = none) (hb : Barred id u s)
    (data : WithdrawalRequest) {key : Option String} (hkey : Unspent key s.db) :
    Denied i t inp id (LedgerService.withdraw id u data key) s := by
  obtain ⟨s₁, h₁, hs₁, hdb₁⟩ := solo_replay (t := t) id h hf hkey
  obtain ⟨s₂, h₂, hs₂, hdb₂, -⟩ := solo_getWithLock (t := t) id hs₁ hf
  rw [hdb₁] at h₂ hdb₂
  cases hrow : s.db.wallets.get id with
  | none =>
      rw [hrow] at h₂
      exact ⟨_, s₂, (runAlone_bind h₁).trans (runAlone_bind h₂), .inl rfl, hs₂, hdb₂⟩
  | some x =>
      rw [hrow] at h₂
      have hx := hb.row x hrow
      exact ⟨_, s₂, (runAlone_bind h₁).trans ((runAlone_bind h₂).trans
        (runAlone_raiseIf.trans (if_pos hx))), .inr rfl, hs₂, hdb₂⟩

/-- The sender is tested before anything of the recipient or the amount is. -/
theorem denied_transfer (h : Solo i [] s) (hf : inp.fault = none) (hb : Barred id u s)
    (data : TransferRequest) (hne : id ≠ data.recipientWalletId) {key : Option String}
    (hkey : Unspent key s.db) : Denied i t inp id (LedgerService.transfer id u data key) s := by
  obtain ⟨s₁, h₁, hs₁, hdb₁⟩ := solo_replay (t := t) id h hf hkey
  obtain ⟨s₂, h₂, hs₂, hdb₂⟩ := solo_lockEach (t := t)
    (WalletRepository.sortedSet [id, data.recipientWalletId]) hs₁ hf
  rw [hdb₁] at h₂ hdb₂
  have hlook := @lookup_locked s.db [id, data.recipientWalletId] id (by simp)
  cases hrow : s.db.wallets.get id with
  | none =>
      rw [hrow] at hlook
      refine ⟨.walletNotFound id, s₂, ?_, .inl rfl, hs₂, hdb₂⟩
      refine runAlone_raiseIf.trans ((if_neg hne).trans ((runAlone_bind h₁).trans
        ((runAlone_bind h₂).trans ?_)))
      simp only [hlook]
      rfl
  | some x =>
      rw [hrow] at hlook
      refine ⟨.walletAccessDenied id, s₂, ?_, .inr rfl, hs₂, hdb₂⟩
      refine runAlone_raiseIf.trans ((if_neg hne).trans ((runAlone_bind h₁).trans
        ((runAlone_bind h₂).trans ?_)))
      simp only [hlook]
      exact runAlone_raiseIf.trans (if_pos (hb.row x hrow))

end services

/-! ## The requests -/

section requests

variable [Runtime] {i : Sid} {k : Request} {inp : Inp} {s : LedgerStore} {id u : Uuid}

/-- A session that ends with `r`, its database as it was. -/
def Answers (i : Sid) (k : Request) (inp : Inp) (p : Tx Reply) (r : Except Exn Reply)
    (s : LedgerStore) : Prop :=
  ∃ s', runAlone engine i k inp p s = some (r, s') ∧ s'.db = s.db

omit [Runtime] in
theorem answers_closing (k : Request) (inp : Inp) {ws : List Write} (h : Solo i ws s)
    (r : Except Exn Reply) :
    Answers i k inp (closing r) r s := by
  obtain ⟨s', hx, -, hdb, -⟩ := solo_close k inp h
  refine ⟨s', (runAlone_bind hx).trans ?_, hdb⟩
  cases r with
  | ok a => rfl
  | error e => rfl

omit [Runtime] in
/-- A denied operation never gets to the cache. -/
theorem answers_denied (ids : List Uuid) {p : Tx (Transaction × Option Wallet)}
    (h : Denied i k inp id p s) :
    ∃ e, Denies id e ∧ Answers i k inp (withSession (Reply.ofMoved <$> (do
      let r ← p
      BalanceCache.invalidate ids
      pure r))) (.error e) s := by
  obtain ⟨e, s₁, h₁, he, hs₁, hdb₁⟩ := h
  obtain ⟨s₂, h₂, -, hdb₂, -⟩ := solo_withSession (p := Reply.ofMoved <$> (do
      let r ← p
      BalanceCache.invalidate ids
      pure r)) (runAlone_bind_error (runAlone_bind_error h₁)) hs₁
  exact ⟨e, he, s₂, h₂, hdb₂.trans hdb₁⟩

theorem answers_listTransactions (h : Solo i [] s) (hf : inp.fault = none) (hb : Barred id u s)
    (limit offset : Nat) : Answers i k inp (Request.listTransactions id limit offset u).program
      (.error Routes.walletNotFound) s := by
  obtain ⟨s₁, h₁, hs₁, hdb₁, -⟩ := solo_reads (t := k) (q := .selectWallet id) h hf rfl
  have hforeign : ∀ x ∈ s.db.wallets.get id, x.userId ≠ u := fun x hx => hb.row x hx
  obtain ⟨s₂, h₂, -, hdb₂, -⟩ := solo_withSession
    (p := Reply.history <$> Routes.listTransactions id limit offset u) (runAlone_bind_error
      ((runAlone_bind h₁).trans (runAlone_raiseIf.trans (if_pos hforeign)))) hs₁
  exact ⟨s₂, h₂, hdb₂.trans hdb₁⟩

/-- A hit is somebody else's entry, and a miss finds somebody else's row or none. -/
theorem answers_getBalance (h : Solo i [] s) (hf : inp.fault = none) (hb : Barred id u s) :
    Answers i k inp (Request.getBalance id u).program (.error Routes.walletNotFound) s := by
  obtain ⟨K, L, hprog, hhit, hmiss, hdown, -, hnone, hforeign, -⟩ := getBalance_program id u
  obtain ⟨r, s₁, h₁, hs₁, hdb₁, hr⟩ := solo_cache (t := k) (q := .cacheGet id) h rfl
  have hload : Answers i k inp (.call (.selectWallet id) L) (.error Routes.walletNotFound) s₁ := by
    obtain ⟨s₂, h₂, hs₂, hdb₂, -⟩ := solo_reads (t := k) (q := .selectWallet id) hs₁ hf rfl
    obtain ⟨s₃, h₃, hdb₃⟩ := answers_closing k inp hs₂ (.error Routes.walletNotFound)
    refine ⟨s₃, (runAlone_call (runAlone_perform.symm.trans h₂)).trans ?_, hdb₃.trans hdb₂⟩
    have hrow : (s₁.db.applyAll []).wallets.get id = s.db.wallets.get id := by
      rw [Db.applyAll_nil, hdb₁]
    cases hx : s.db.wallets.get id with
    | none => rw [hrow, hx, hnone, h₃]
    | some x => rw [hrow, hx, hforeign x (hb.row x hx), h₃]
  rw [hprog]
  have hcall : runAlone engine i k inp (.call (.cacheGet id) K) s
      = runAlone engine i k inp (K r) s₁ := runAlone_call (runAlone_perform.symm.trans h₁)
  obtain ⟨s₂, h₂, hdb₂⟩ := hload
  rcases hr with ⟨-, rfl⟩ | ⟨-, rfl⟩
  · cases hc : s.aux.cache id with
    | none => exact ⟨s₂, by rw [hcall, hc, hmiss, h₂], hdb₂.trans hdb₁⟩
    | some c =>
        obtain ⟨s₃, h₃, hdb₃⟩ := answers_closing k inp hs₁
          (.error Routes.walletNotFound)
        have hans : hitResponse c u = .error Routes.walletNotFound := if_pos (hb.entry c hc)
        exact ⟨s₃, by rw [hcall, hc, hhit, hans, h₃], hdb₃.trans hdb₁⟩
  · exact ⟨s₂, by rw [hcall, hdown, h₂], hdb₂.trans hdb₁⟩

/-- **What a requester is told about a wallet that is not theirs** depends on the request only. -/
theorem barred_answered (h : Solo i [] s) (hf : inp.fault = none) (hb : Barred id u s) {t : Request}
    (ht : t.On id u s.db) :
    ∃ r, Answers i k inp t.program r s ∧ t.respond r = some t.refusal := by
  cases ht with
  | getBalance => exact ⟨_, answers_getBalance h hf hb, rfl⟩
  | listTransactions limit offset => exact ⟨_, answers_listTransactions h hf hb limit offset, rfl⟩
  | deposit data =>
      obtain ⟨e, rfl | rfl, hans⟩ := answers_denied [id] (denied_deposit (t := k) h hf hb data)
      · exact ⟨_, hans, rfl⟩
      · exact ⟨_, hans, rfl⟩
  | withdraw data key hkey =>
      obtain ⟨e, rfl | rfl, hans⟩ := answers_denied [id]
        (denied_withdraw (t := k) h hf hb data hkey)
      · exact ⟨_, hans, rfl⟩
      · exact ⟨_, hans, rfl⟩
  | transfer data key hkey =>
      by_cases hne : id = data.recipientWalletId
      · -- the request names one wallet twice
        obtain ⟨s₁, h₁, -, hdb₁, -⟩ := solo_withSession
          (p := Reply.ofMoved <$> Routes.transfer id u data key) (s := s) (t := k)
          (runAlone_bind_error (runAlone_bind_error (runAlone_raiseIf.trans (if_pos hne)))) h
        refine ⟨.error (.sameWalletTransfer id), ⟨s₁, h₁, hdb₁⟩, ?_⟩
        show some _ = some (if id = data.recipientWalletId then _ else _)
        rw [if_pos hne]
        rfl
      · obtain ⟨e, he, hans⟩ := answers_denied [id, data.recipientWalletId]
          (denied_transfer (t := k) h hf hb data hne hkey)
        refine ⟨_, hans, ?_⟩
        show some _ = some (if id = data.recipientWalletId then _ else _)
        rw [if_neg hne]
        rcases he with rfl | rfl
        · rfl
        · rfl

end requests

/-! ## Two systems -/

section veil

variable [Runtime] {w : LedgerWorld} {id u : Uuid}

/-- A cached entry has the owner its wallet has. -/
theorem cached_owner (h : ReachableFrom .empty w) {c : CachedBalance}
    (hc : w.store.aux.cache id = some c) :
    ∃ x, w.store.db.wallets.get id = some x ∧ x.userId = c.userId := by
  obtain ⟨n, hn, y, hy, rfl⟩ := (cache_had h).1 id c hc
  have hgrow : (w.store.past engine .empty n).Grows w.store.db := by
    rw [h.past.1]
    exact Evolves.grows ⟨_, (reachable_settled h).chain hn⟩
  obtain ⟨x, hx, howner, -⟩ := hgrow.wallets id y hy
  exact ⟨x, hx, howner⟩

theorem barred_foreign (h : ReachableFrom .empty w) {x : Wallet}
    (hx : w.store.db.wallets.get id = some x) (hu : x.userId ≠ u) : Barred id u w.store.idle where
  row := by
    intro y hy
    have hxy : x = y := Option.some.inj (hx.symm.trans hy)
    exact hxy ▸ hu
  entry := by
    intro c hc
    obtain ⟨y, hy, howner⟩ := cached_owner h hc
    have hxy : x = y := Option.some.inj (hx.symm.trans hy)
    rw [← howner, ← hxy]
    exact hu

theorem barred_missing (h : ReachableFrom .empty w) (hnone : w.store.db.wallets.get id = none) :
    Barred id u w.store.idle where
  row := fun y hy => absurd (hnone.symm.trans hy) (by simp)
  entry := by
    intro c hc
    obtain ⟨y, hy, -⟩ := cached_owner h hc
    exact absurd (hnone.symm.trans hy) (by simp)

/-- **Somebody else's wallet cannot be told from one that does not exist.** In one system the
wallet is another user's, in another there is none: a request on it is answered alike in both,
whatever else they hold and whether or not their caches respond, and changes neither. -/
theorem reachable_veiled (w₁ w₂ : LedgerWorld) (h₁ : ReachableFrom .empty w₁)
    (h₂ : ReachableFrom .empty w₂) (id u : Uuid) (x : Wallet)
    (hx : w₁.store.db.wallets.get id = some x) (hu : x.userId ≠ u)
    (hnone : w₂.store.db.wallets.get id = none) (t : Request) (ht₁ : t.On id u w₁.store.db)
    (ht₂ : t.On id u w₂.store.db) (inp₁ inp₂ : Inp) (hf₁ : inp₁.fault = none)
    (hf₂ : inp₂.fault = none) :
    ∃ r₁ s₁ r₂ s₂ a, runAlone engine w₁.next t inp₁ t.program w₁.store.idle = some (r₁, s₁)
      ∧ runAlone engine w₂.next t inp₂ t.program w₂.store.idle = some (r₂, s₂)
      ∧ t.respond r₁ = some a ∧ t.respond r₂ = some a
      ∧ s₁.db = w₁.store.db ∧ s₂.db = w₂.store.db := by
  obtain ⟨r₁, ⟨s₁, hx₁, hdb₁⟩, ha₁⟩ := barred_answered (k := t)
    ((idle_atRest w₁.store).solo w₁.next) hf₁ (barred_foreign h₁ hx hu) ht₁
  obtain ⟨r₂, ⟨s₂, hx₂, hdb₂⟩, ha₂⟩ := barred_answered (k := t)
    ((idle_atRest w₂.store).solo w₂.next) hf₂ (barred_missing h₂ hnone) ht₂
  exact ⟨r₁, s₁, r₂, s₂, t.refusal, hx₁, hx₂, ha₁, ha₂, hdb₁, hdb₂⟩

end veil

/-- Ann's balance is in the cache. -/
def cachedOpening : List LedgerAction := opening ++ [.spawn (.getBalance 31 12)] ++ advance 5 4 0

/-- Bob tries to withdraw from Ann's wallet, and from the same id where there is no wallet. -/
theorem opening_veiled : ∃ w₁ w₂ x, (@ReachableFrom plainRuntime .empty w₁
      ∧ @ReachableFrom plainRuntime .empty w₂ ∧ w₁.store.db.wallets.get 31 = some x ∧ x.userId ≠ 22
      ∧ (w₁.store.aux.cache 31).isSome = true ∧ w₂.store.db.wallets.get 31 = none)
    ∧ ∃ r₁ s₁ r₂ s₂ a,
      runAlone engine w₁.next (Request.withdraw 31 22 (withdrawalOf 5) none) {}
          (@Request.program plainRuntime (.withdraw 31 22 (withdrawalOf 5) none)) w₁.store.idle
        = some (r₁, s₁)
      ∧ runAlone engine w₂.next (Request.withdraw 31 22 (withdrawalOf 5) none) {}
          (@Request.program plainRuntime (.withdraw 31 22 (withdrawalOf 5) none)) w₂.store.idle
        = some (r₂, s₂)
      ∧ (Request.withdraw 31 22 (withdrawalOf 5) none).respond r₁ = some a
      ∧ (Request.withdraw 31 22 (withdrawalOf 5) none).respond r₂ = some a
      ∧ s₁.db = w₁.store.db ∧ s₂.db = w₂.store.db := by
  obtain ⟨w₁, hr₁, hw₁⟩ := exists_runPlain .empty cachedOpening
    (fun w => ((w.store.db.wallets.get 31).map Wallet.userId, (w.store.aux.cache 31).isSome))
    (v := (some 12, true)) (by decide +kernel)
  obtain ⟨w₂, hr₂, hw₂⟩ := exists_runPlain .empty []
    (fun w => (w.store.db.wallets.get 31).isNone) (v := true) (by decide +kernel)
  obtain ⟨x, hx, howner⟩ := Option.map_eq_some_iff.mp (congrArg Prod.fst hw₁)
  have hu : x.userId ≠ 22 := by rw [howner]; decide
  have hnone : w₂.store.db.wallets.get 31 = none := Option.isNone_iff_eq_none.mp hw₂
  have hkey : ∀ db : Db, Unspent none db := fun db k hk => absurd hk (by simp)
  exact ⟨w₁, w₂, x, ⟨hr₁, hr₂, hx, hu, congrArg Prod.snd hw₁, hnone⟩,
    @reachable_veiled plainRuntime w₁ w₂ hr₁ hr₂ 31 22 x hx hu hnone _
      (.withdraw (withdrawalOf 5) none (hkey _))
        (.withdraw (withdrawalOf 5) none (hkey _)) {} {} rfl rfl⟩

end WalletLedger
