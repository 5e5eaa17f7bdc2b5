import WalletLedger.Proof.Effects
import WalletLedger.Proof.Trails

/-!
# The balance cache

The route fills the cache with the row it has read, some time after reading it, and
others delete the entry some time after changing the row. Whatever the order, and
whichever of the calls fail, an entry is a row its wallet has had: nothing else is
ever written to the cache. So what a hit is answered with may be old, but it is
the wallet's own and its owner's.
-/

namespace WalletLedger

open Isolation Prog

variable [Runtime]

/-! ## The trail of a balance request -/

/-- The answer from a cached entry. -/
def hitResponse (c : CachedBalance) (u : Uuid) : Except Exn Reply :=
  if c.userId ≠ u then .error Routes.walletNotFound else .ok (.balance c.read)

/-- The answer from a database. -/
def balanceResponse (db : Db) (id u : Uuid) : Except Exn Reply :=
  match db.wallets.get id with
  | none => .error Routes.walletNotFound
  | some x => if x.userId ≠ u then .error Routes.walletNotFound else .ok (.balance (.ofWallet x))

/-- The session closes, or has closed and ended with `r`. -/
def Closes (r : Except Exn Reply) (os : List LedgerObs) (out : Option (Except Exn Reply)) : Prop :=
  (os = [] ∧ out = none) ∨ ∃ o : LedgerObs, os = [o] ∧ o.stmt = .close ∧ out = some r

/-- What a balance request may have executed, and how it has ended, if it has. -/
inductive BalanceScript (id u : Uuid) : List LedgerObs → Option (Except Exn Reply) → Prop where
  | start : BalanceScript id u [] none
  /-- Answered from the cache. -/
  | hit {g : LedgerObs} {c : CachedBalance} {os : List LedgerObs} {out : Option (Except Exn Reply)}
      (get : g.stmt = .cacheGet id) (answered : g.inp.cacheFault = none)
      (entry : g.aux.cache id = some c) (rest : Closes (hitResponse c u) os out) :
      BalanceScript id u (g :: os) out
  /-- Nothing found in the cache. -/
  | missed {g : LedgerObs} (get : g.stmt = .cacheGet id)
      (miss : g.inp.cacheFault ≠ none ∨ g.aux.cache id = none) : BalanceScript id u [g] none
  /-- The database fails. -/
  | failed {g d : LedgerObs} {f : DbError} {os : List LedgerObs} {out : Option (Except Exn Reply)}
      (get : g.stmt = .cacheGet id) (miss : g.inp.cacheFault ≠ none ∨ g.aux.cache id = none)
      (select : d.stmt = .selectWallet id) (fault : d.inp.fault = some f)
      (rest : Closes (.error (.db f)) os out) : BalanceScript id u (g :: d :: os) out
  /-- No such wallet of this user. -/
  | refused {g d : LedgerObs} {os : List LedgerObs} {out : Option (Except Exn Reply)}
      (get : g.stmt = .cacheGet id) (miss : g.inp.cacheFault ≠ none ∨ g.aux.cache id = none)
      (select : d.stmt = .selectWallet id) (fault : d.inp.fault = none)
      (response : balanceResponse d.db id u = .error Routes.walletNotFound)
      (rest : Closes (.error Routes.walletNotFound) os out) : BalanceScript id u (g :: d :: os) out
  /-- The row has been read. -/
  | loaded {g d : LedgerObs} {x : Wallet}
      (get : g.stmt = .cacheGet id) (miss : g.inp.cacheFault ≠ none ∨ g.aux.cache id = none)
      (select : d.stmt = .selectWallet id) (fault : d.inp.fault = none)
      (row : d.db.wallets.get id = some x) (owner : x.userId = u) : BalanceScript id u [g, d] none
  /-- The cache has been filled with it, or the attempt has failed. -/
  | filled {g d f : LedgerObs} {x : Wallet} {os : List LedgerObs} {out : Option (Except Exn Reply)}
      (get : g.stmt = .cacheGet id) (miss : g.inp.cacheFault ≠ none ∨ g.aux.cache id = none)
      (select : d.stmt = .selectWallet id) (fault : d.inp.fault = none)
      (row : d.db.wallets.get id = some x) (owner : x.userId = u)
      (set : f.stmt = .cacheSetex id (.ofWallet x))
      (rest : Closes (.ok (.balance (.ofWallet x))) os out) :
      BalanceScript id u (g :: d :: f :: os) out

omit [Runtime] in
theorem closing_closes {i : Sid} {t : Request} {r : Except Exn Reply} {os : List LedgerObs}
    {p : Tx Reply} {ws : List Write} (h : Trail engine i t (closing r) [] os p ws) :
    Closes r os (outcome p) := by
  obtain ⟨-, ⟨rfl, rfl⟩ | ⟨o, rfl, ho, rfl⟩⟩ := closing_inv h
  · exact .inl ⟨rfl, rfl⟩
  · exact .inr ⟨o, rfl, ho, outcome_ofExcept r⟩

omit [Runtime] in
/-- The check of the owner answers for a foreign wallet as for none. -/
theorem owned_foreign {id u : Uuid} {x : Wallet} {α : Type} {f : Wallet → Tx α}
    (hx : x.userId ≠ u) :
    (Routes.orNotFound (raiseIf (x.userId ≠ u) (.walletAccessDenied id) >>= fun _ => pure x) >>= f)
      = raise Routes.walletNotFound := by
  unfold raiseIf
  rw [if_pos hx]
  rfl

omit [Runtime] in
theorem owned_own {id u : Uuid} {x : Wallet} {α : Type} {f : Wallet → Tx α} (hx : x.userId = u) :
    (Routes.orNotFound (raiseIf (x.userId ≠ u) (.walletAccessDenied id) >>= fun _ => pure x) >>= f)
      = f x := by
  unfold raiseIf
  rw [if_neg (not_not.mpr hx)]
  rfl

/-- The program of a balance request, statement by statement. -/
theorem getBalance_program (id u : Uuid) :
    ∃ K L, (Request.getBalance id u).program = .call (.cacheGet id) K
      ∧ (∀ c, K (.ok (some c)) = closing (hitResponse c u))
      ∧ K (.ok none) = .call (.selectWallet id) L ∧ (∀ e, K (.error e) = .call (.selectWallet id) L)
      ∧ (∀ f, L (.error (.db f)) = closing (.error (.db f)))
      ∧ L (.ok none) = closing (.error Routes.walletNotFound)
      ∧ (∀ x, x.userId ≠ u → L (.ok (some x)) = closing (.error Routes.walletNotFound))
      ∧ ∀ x, x.userId = u → ∃ M, L (.ok (some x)) = .call (.cacheSetex id (.ofWallet x)) M
        ∧ ∀ r, M r = closing (.ok (.balance (.ofWallet x))) := by
  refine ⟨_, _, rfl, fun c => ?_, rfl, fun e => rfl, fun f => rfl, rfl, fun x hx =>
    ?_, fun x hx => ?_⟩
  · show withSession (Reply.balance <$> (raiseIf (c.userId ≠ u) Routes.walletNotFound
      >>= fun _ => pure c.read)) = _
    unfold raiseIf hitResponse
    by_cases hc : c.userId ≠ u
    · rw [if_pos hc, if_pos hc]
      rfl
    · rw [if_neg hc, if_neg hc]
      rfl
  · exact congrArg (fun p => withSession (Reply.balance <$> p)) (owned_foreign hx)
  · refine ⟨_, congrArg (fun p => withSession (Reply.balance <$> p)) (owned_own hx), fun r => ?_⟩
    cases r with
    | ok a => rfl
    | error e => rfl

/-- **Everything a balance request can have done.** -/
theorem getBalance_trail {id u : Uuid} {i : Sid} {t : Request} {os : List LedgerObs} {p : Tx Reply}
    {ws : List Write} (h : Trail engine i t (Request.getBalance id u).program [] os p ws) :
    BalanceScript id u os (outcome p) := by
  obtain ⟨K, L, hprog, hhit, hmiss, hdown, hfail, hnone, hforeign, hown⟩ := getBalance_program id u
  rw [hprog] at h
  rcases cache_inv (f := fun o => o) (fun _ _ _ _ => rfl) h with ⟨rfl, rfl, rfl⟩
    | ⟨g, os₁, rfl, hg, h₁⟩
  · exact .start
  -- a hit ends the request; everything else goes on with the database
  have hload : (∃ c, g.inp.cacheFault = none ∧ g.aux.cache id = some c
        ∧ Closes (hitResponse c u) os₁ (outcome p))
      ∨ ((g.inp.cacheFault ≠ none ∨ g.aux.cache id = none)
        ∧ Trail engine i t (.call (.selectWallet id) L) [] os₁ p ws) := by
    rcases h₁ with ⟨hf, h₁⟩ | ⟨hf, h₁⟩
    · rw [hdown] at h₁
      exact .inr ⟨.inl hf, h₁⟩
    · cases hc : g.aux.cache id with
      | none =>
          rw [hc, hmiss] at h₁
          exact .inr ⟨.inr rfl, h₁⟩
      | some c =>
          rw [hc, hhit] at h₁
          exact .inl ⟨c, hf, rfl, closing_closes h₁⟩
  rcases hload with ⟨c, hf, hc, hrest⟩ | ⟨hm, h₁⟩
  · exact .hit hg hf hc hrest
  rcases read_inv (fun _ _ _ _ => rfl) h₁ with ⟨rfl, rfl, rfl⟩ | ⟨d, os₂, rfl, hd, h₂⟩
  · exact .missed hg hm
  rcases h₂ with ⟨f, hf, h₂⟩ | ⟨hf, h₂⟩
  · rw [hfail] at h₂
    exact .failed hg hm hd hf (closing_closes h₂)
  cases hx : d.db.wallets.get id with
  | none =>
      rw [hx, hnone] at h₂
      exact .refused hg hm hd hf (by rw [balanceResponse, hx]) (closing_closes h₂)
  | some x =>
      rw [hx] at h₂
      by_cases hu : x.userId = u
      · obtain ⟨M, hset, hrest⟩ := hown x hu
        rw [hset] at h₂
        rcases cache_inv (f := fun o => o.setex id (.ofWallet x)) (fun _ _ _ _ => rfl) h₂ with
          ⟨rfl, rfl, rfl⟩ | ⟨f, os₃, rfl, hfill, h₃⟩
        · exact .loaded hg hm hd hf hx hu
        · refine .filled hg hm hd hf hx hu hfill ?_
          rcases h₃ with ⟨-, h₃⟩ | ⟨-, h₃⟩
          · rw [hrest] at h₃
            exact closing_closes h₃
          · rw [hrest] at h₃
            exact closing_closes h₃
      · rw [hforeign x hu] at h₂
        refine .refused hg hm hd hf ?_ (closing_closes h₂)
        simp only [balanceResponse, hx]
        exact if_pos hu

/-! ## Who calls the cache -/

/-- The calls of the cache a request may make: a balance request reads and fills its
wallet's entry, a money operation deletes those of the wallets it touches. -/
def Request.Caches (t : Request) (q : Stmt) : Prop :=
  (∃ id u, t = .getBalance id u ∧ (q = .cacheGet id ∨ ∃ c, q = .cacheSetex id c))
  ∨ (t.movesMoney = true ∧ q = .cacheDelete t.touched)

omit [Runtime] in
theorem Request.Caches.fill {t : Request} {id : Uuid} {c : CachedBalance}
    (h : t.Caches (.cacheSetex id c)) : ∃ u, t = .getBalance id u := by
  rcases h with ⟨id', u, rfl, hq⟩ | ⟨-, hq⟩
  · rcases hq with hq | ⟨c', hq⟩
    · exact absurd hq (by simp)
    · cases hq
      exact ⟨u, rfl⟩
  · exact absurd hq (by simp)

omit [Runtime] in
theorem Request.Caches.delete {t : Request} {ids : List Uuid} (h : t.Caches (.cacheDelete ids)) :
    t.movesMoney = true ∧ ids = t.touched := by
  rcases h with ⟨id, u, -, hq⟩ | ⟨ht, hq⟩
  · rcases hq with hq | ⟨c, hq⟩
    · exact absurd hq (by simp)
    · exact absurd hq (by simp)
  · cases hq
    exact ⟨ht, rfl⟩

omit [Runtime] in
theorem Request.next_money {t : Request} (ht : t.movesMoney = true) : t.next = none := by
  cases t with
  | deposit | transfer | withdraw => rfl
  | _ => exact absurd ht (by simp [Request.movesMoney])

/-- A money route is its operation followed by the invalidation of what it touches. -/
theorem Request.program_money {t : Request} (ht : t.movesMoney = true) :
    ∃ p, Keeps [.plain, .book] p ∧ t.program = withSession (Reply.ofMoved <$> (do
      let r ← p
      BalanceCache.invalidate t.touched
      pure r)) := by
  cases t with
  | deposit w u data => exact ⟨_, keeps_deposit w u data, rfl⟩
  | transfer w u data key => exact ⟨_, keeps_transfer w u data key, rfl⟩
  | withdraw w u data key => exact ⟨_, keeps_withdraw w u data key, rfl⟩
  | _ => exact absurd ht (by simp [Request.movesMoney])

omit [Runtime] in
theorem uses_invalidate {P : Stmt → Prop} {ids : List Uuid} (h : P (.cacheDelete ids)) :
    (BalanceCache.invalidate ids).Uses P := by
  unfold BalanceCache.invalidate
  by_cases hids : ids = []
  · rw [if_pos hids]
    trivial
  · rw [if_neg hids]
    exact .bind (.attempt (.perform h)) (fun _ => trivial)

omit [Runtime] in
theorem Keeps.cacheless {α : Type} {as : List Area} {p : Tx α} (hp : Keeps as p)
    (has : .cache ∉ as) :
    p.Uses (fun q => q.area ≠ .cache) :=
  Uses.mono hp (fun _ hq he => has (he ▸ hq))

/-- **Every call of the cache is one of those.** -/
theorem Request.program_caches (t : Request) :
    t.program.Uses (fun q => q.area = .cache → t.Caches q) := by
  by_cases ht : t.movesMoney = true
  · obtain ⟨p, hp, hprog⟩ := Request.program_money ht
    rw [hprog]
    refine uses_withSession (.bind ?_ (fun _ => .bind ?_ (fun _ => trivial))) (by simp [Stmt.area])
    · exact Uses.mono (hp.cacheless (by simp)) (fun q hq he => absurd he hq)
    · exact uses_invalidate (fun _ => .inr ⟨ht, rfl⟩)
  cases t with
  | deposit | transfer | withdraw => exact absurd rfl ht
  | getBalance w u =>
      refine uses_withSession (Uses.mono (uses_getBalance w u) (fun q hq he => ?_))
        (by simp [Stmt.area])
      rcases hq with rfl | rfl | ⟨payload, rfl⟩
      · exact .inl ⟨w, u, rfl, .inl rfl⟩
      · exact absurd he (by simp [Stmt.area])
      · exact .inl ⟨w, u, rfl, .inr ⟨payload, rfl⟩⟩
  | register | createWallet | publish | handleEvent | analyticsConsumer
      | listTransactions | reconcile =>
      exact Uses.mono ((Request.program_keeps _).cacheless (by simp [Request.areas]))
        (fun q hq he => absurd he hq)

omit [Runtime] in
theorem Request.next_caches {t : Request} {p : Tx Reply} (h : t.next = some p) :
    p.Uses (fun q => q.area = .cache → t.Caches q) := by
  cases t with
  | analyticsConsumer =>
      exact Uses.mono ((Request.next_keeps h).cacheless (by simp [Request.areas]))
        (fun q hq he => absurd he hq)
  | _ => cases h

theorem cache_calls {db₀ : Db} {w : LedgerWorld} (h : ReachableFrom db₀ w) :
    ∀ o ∈ w.store.trace, o.stmt.area = .cache → o.tag.Caches o.stmt :=
  (h.uses (P := fun t q => q.area = .cache → t.Caches q)
    (fun o ho => absurd ho (by simp [LedgerStore.start, Store.init])) Request.program_caches
    (fun t p hp => Request.next_caches hp)).2

/-! ## What a move does to the cache -/

/-- A `delete` that names the wallet. -/
def Obs.Deletes (o : LedgerObs) (id : Uuid) : Prop := ∃ ids, o.stmt = .cacheDelete ids ∧ id ∈ ids

omit [Runtime] in
/-- An entry was there before and has not been deleted, or it has just been filled in. -/
theorem run_cache {q : Stmt} {inp : Inp} {i : Sid} {db : Db} {o : Outside}
    {e : Effect Write Res Outside Exn q.Ans} (h : run q inp i db o = some e) {id : Uuid}
    {c : CachedBalance} (hc : e.aux.cache id = some c) :
    (o.cache id = some c ∧ (inp.cacheFault = none → ∀ ids, q = .cacheDelete ids → id ∉ ids))
    ∨ q = .cacheSetex id c := by
  by_cases hq : q.area = .cache
  · cases q with
    | cacheGet id' =>
        cases h
        refine .inl ⟨?_, fun _ ids he => absurd he (by simp)⟩
        rcases runCache_aux inp o o (o.cache id') with haux | ⟨-, haux⟩
        · rw [haux] at hc; exact hc
        · rw [haux] at hc; exact hc
    | cacheSetex id' c' =>
        cases h
        have hnot : inp.cacheFault = none → ∀ ids, Stmt.cacheSetex id' c'
            = .cacheDelete ids → id ∉ ids :=
          fun _ ids he => absurd he (by simp)
        rcases runCache_aux inp o (o.setex id' c') () with haux | ⟨-, haux⟩
        · rw [haux] at hc
          rcases Outside.setex_some hc with ⟨rfl, rfl⟩ | hc
          · exact .inr rfl
          · exact .inl ⟨hc, hnot⟩
        · rw [haux] at hc
          exact .inl ⟨hc, hnot⟩
    | cacheDelete ids =>
        cases h
        refine .inl ?_
        rcases runCache_aux inp o (o.delete ids) () with haux | ⟨hf, haux⟩
        · rw [haux] at hc
          obtain ⟨hc, hid⟩ := Outside.delete_some hc
          refine ⟨hc, fun _ ids' he => ?_⟩
          cases he
          exact hid
        · rw [haux] at hc
          exact ⟨hc, fun hnone => absurd hnone hf⟩
    | _ => exact absurd hq (by simp [Stmt.area])
  · rw [(run_within h).cache hq] at hc
    refine .inl ⟨hc, fun _ ids he => ?_⟩
    rw [he] at hq
    exact absurd rfl hq

/-- **What a move does to the cache**, and to the history. -/
theorem step_cache {w w' : LedgerWorld} {a : LedgerAction} (h : system.step w a = some w') :
    ∃ os, w'.store.trace = w.store.trace ++ os
      ∧ ∀ id c, w'.store.aux.cache id = some c →
        (w.store.aux.cache id = some c ∧ ∀ o ∈ os, o.inp.cacheFault = none → ¬Obs.Deletes o id)
        ∨ ∃ o p, os = [o] ∧ o.stmt = .cacheSetex id c ∧ w'.sess o.sid = some (o.tag, p) := by
  rcases step_cases h with ⟨t, -, rfl⟩ | ⟨i, inp, t, q, k, r, s', -, hsess, hx, rfl⟩
    | ⟨i, inp, t, x, p, -, -, -, rfl⟩ | ⟨i, x, -, -, rfl⟩ | ⟨x, o, -, hmove, rfl⟩
  · exact ⟨[], by simp, fun id c hc => .inl ⟨hc, by simp⟩⟩
  · refine ⟨_, exec_trace hx, fun id c hc => ?_⟩
    obtain ⟨e, he, -, haux, -⟩ := exec_outcome hx
    have hc : s'.aux.cache id = some c := hc
    rw [haux] at hc
    rcases run_cache he hc with ⟨hold, hkeep⟩ | rfl
    · refine .inl ⟨hold, fun o ho hf => ?_⟩
      rw [List.mem_singleton.mp ho] at hf ⊢
      rintro ⟨ids, hq, hid⟩
      exact hkeep hf ids hq hid
    · exact .inr ⟨_, k r, rfl, rfl, upd_self _ _ _⟩
  · exact ⟨[], by simp, fun id c hc => .inl ⟨hc, by simp⟩⟩
  · exact ⟨[], by simp [Store.drop], fun id c hc => .inl ⟨hc, by simp⟩⟩
  · refine ⟨[], by simp, fun id c hc => .inl ⟨?_, by simp⟩⟩
    have hmove : w.store.aux.move x = some o := hmove
    have hc : o.cache id = some c := hc
    cases x with
    | ack n p =>
        obtain ⟨x, -, rfl⟩ := Outside.ack_cases hmove
        exact hc
    | settle k =>
        obtain ⟨p, n, -, rfl⟩ := Outside.settle_cases hmove
        exact hc
    | append p v => cases hmove; exact hc
    | assign p i => cases hmove; exact hc
    | lose k => cases hmove; exact hc
    | expire id' =>
        cases hmove
        exact (Outside.delete_some hc).1

/-! ## What is in the cache -/

omit [Runtime] in
theorem Closes.stmt {r : Except Exn Reply} {os : List LedgerObs} {out : Option (Except Exn Reply)}
    (h : Closes r os out) : ∀ o ∈ os, o.stmt = .close := by
  rcases h with ⟨rfl, -⟩ | ⟨o, rfl, ho, -⟩
  · exact fun o ho => absurd ho (by simp)
  · intro o' ho'
    rw [List.mem_singleton.mp ho']
    exact ho

omit [Runtime] in
/-- A balance request that has filled the cache has read what it filled in. -/
theorem BalanceScript.fill {id u : Uuid} {os : List LedgerObs} {out : Option (Except Exn Reply)}
    (h : BalanceScript id u os out) {o : LedgerObs} (ho : o ∈ os) {id' : Uuid} {c : CachedBalance}
    (hset : o.stmt = .cacheSetex id' c) :
    ∃ d ∈ os, ∃ x, d.stmt = .selectWallet id ∧ d.inp.fault = none
      ∧ d.db.wallets.get id = some x ∧ x.userId = u ∧ c = .ofWallet x := by
  -- every other statement of the request is something else
  have hno : ∀ q : Stmt, (∀ id c, q ≠ .cacheSetex id c) → o.stmt ≠ q :=
    fun q hq he => hq id' c (he ▸ hset)
  have hget := hno (.cacheGet id) (by simp)
  have hsel := hno (.selectWallet id) (by simp)
  have hclose := hno .close (by simp)
  cases h with
  | start => exact absurd ho (by simp)
  | hit get _ _ rest =>
      rcases List.mem_cons.mp ho with rfl | ho
      · exact absurd get hget
      · exact absurd (rest.stmt o ho) hclose
  | missed get _ =>
      rw [List.mem_singleton.mp ho] at hget
      exact absurd get hget
  | failed get _ select _ rest =>
      rcases List.mem_cons.mp ho with rfl | ho
      · exact absurd get hget
      rcases List.mem_cons.mp ho with rfl | ho
      · exact absurd select hsel
      · exact absurd (rest.stmt o ho) hclose
  | refused get _ select _ _ rest =>
      rcases List.mem_cons.mp ho with rfl | ho
      · exact absurd get hget
      rcases List.mem_cons.mp ho with rfl | ho
      · exact absurd select hsel
      · exact absurd (rest.stmt o ho) hclose
  | loaded get _ select _ _ _ =>
      rcases List.mem_cons.mp ho with rfl | ho
      · exact absurd get hget
      · rw [List.mem_singleton.mp ho] at hsel
        exact absurd select hsel
  | @filled g d f x os out get _ select fault row owner set rest =>
      refine ⟨d, by simp, x, select, fault, row, owner, ?_⟩
      rcases List.mem_cons.mp ho with rfl | ho
      · exact absurd get hget
      rcases List.mem_cons.mp ho with rfl | ho
      · exact absurd select hsel
      rcases List.mem_cons.mp ho with rfl | ho
      · rw [set] at hset
        cases hset
        rfl
      · exact absurd (rest.stmt o ho) hclose

/-- **The cache is filled with what its own request has read.** -/
theorem fill_read {db₀ : Db} {w : LedgerWorld} (h : ReachableFrom db₀ w) {o : LedgerObs}
    (ho : o ∈ w.store.trace) {id : Uuid} {c : CachedBalance} (hset : o.stmt = .cacheSetex id c)
    {p : Tx Reply} (hsess : w.sess o.sid = some (o.tag, p)) :
    ∃ u, o.tag = .getBalance id u ∧ ∃ d ∈ w.store.script o.sid, ∃ x, d.stmt = .selectWallet id
      ∧ d.inp.fault = none ∧ d.db.wallets.get id = some x ∧ x.userId = u ∧ c = .ofWallet x := by
  have hcall := cache_calls h o ho (by rw [hset]; rfl)
  rw [hset] at hcall
  obtain ⟨u, hu⟩ := hcall.fill
  rw [hu] at hsess
  have htrail := h.trail.2 o.sid (.getBalance id u) p hsess rfl
  exact ⟨u, hu, (getBalance_trail htrail).fill (mem_script.mpr ⟨ho, rfl⟩) hset⟩

/-- A row the wallet has had, at the latest after `m` commits. -/
def Had (db₀ : Db) (s : LedgerStore) (m : Nat) (id : Uuid) (c : CachedBalance) : Prop :=
  ∃ n ≤ m, ∃ x, (s.past engine db₀ n).wallets.get id = some x ∧ c = .ofWallet x

omit [Runtime] in
theorem Had.mono {db₀ : Db} {s s' : LedgerStore} {cs : List LedgerCommit} {m m' : Nat} {id : Uuid}
    {c : CachedBalance} (h : Had db₀ s m id c) (hs : s'.commits = s.commits ++ cs)
    (hm : m ≤ s.commits.length) (hmm : m ≤ m') : Had db₀ s' m' id c := by
  obtain ⟨n, hn, x, hx, rfl⟩ := h
  exact ⟨n, by omega, x, by rw [past_append hs (by omega)]; exact hx, rfl⟩

/-- **Everything in the cache is a row its wallet has had**, now and whenever a
statement was executed. -/
theorem cache_had {db₀ : Db} {w : LedgerWorld} (h : ReachableFrom db₀ w) :
    (∀ id c, w.store.aux.cache id = some c → Had db₀ w.store w.store.commits.length id c)
    ∧ ∀ o ∈ w.store.trace, ∀ id c, o.aux.cache id = some c → Had db₀ w.store o.clock id c := by
  induction h with
  | init =>
      refine ⟨fun id c hc => ?_, fun o ho => ?_⟩
      · exact absurd hc (by simp [World.init, LedgerStore.start, Store.init, Outside.init])
      · exact absurd ho (by simp [World.init, LedgerStore.start, Store.init])
  | tail hr hs ih =>
      rename_i w₁ w₂ a
      obtain ⟨hnow, hthen⟩ := ih
      have hr₂ : ReachableFrom db₀ w₂ := hr.tail hs
      obtain ⟨cs, os, hcs, hos, -, hmet, -⟩ := step_history hs
      have hlen : w₂.store.commits.length = w₁.store.commits.length + cs.length := by
        rw [hcs, List.length_append]
      constructor
      · intro id c hc
        obtain ⟨os', hos', hcache⟩ := step_cache hs
        rcases hcache id c hc with ⟨hold, -⟩ | ⟨o, p, rfl, hset, hsess⟩
        · exact (hnow id c hold).mono hcs (Nat.le_refl _) (by omega)
        · -- a fill: the row its session has read, at the time it was read
          have ho : o ∈ w₂.store.trace := by rw [hos']; simp
          obtain ⟨u, -, d, hd, x, -, -, hx, -, rfl⟩ := fill_read hr₂ ho hset hsess
          obtain ⟨hclock, hdb⟩ := hr₂.past.2 d (mem_script.mp hd).1
          exact ⟨d.clock, hclock, x, by rw [← system_toEngine, ← hdb]; exact hx, rfl⟩
      · intro o ho id c hc
        rw [hos, List.mem_append] at ho
        rcases ho with ho | ho
        · exact (hthen o ho id c hc).mono hcs (hr.past.2 o ho).1 (Nat.le_refl _)
        · obtain ⟨-, haux, hclock⟩ := hmet o ho
          rw [haux] at hc
          rw [hclock]
          exact (hnow id c hc).mono hcs (Nat.le_refl _) (Nat.le_refl _)

omit [Runtime] in
/-- What a balance request that has succeeded was answered from: an entry of the cache,
or the row. -/
theorem BalanceScript.answered {id u : Uuid} {os : List LedgerObs} {r : Reply}
    (h : BalanceScript id u os (some (.ok r))) :
    (∃ g ∈ os, ∃ c, g.stmt = .cacheGet id ∧ g.inp.cacheFault = none ∧ g.aux.cache id = some c
      ∧ c.userId = u ∧ r = .balance c.read)
    ∨ ∃ d ∈ os, ∃ x, d.stmt = .selectWallet id ∧ d.inp.fault = none
      ∧ d.db.wallets.get id = some x ∧ x.userId = u ∧ r = .balance (.ofWallet x) := by
  cases h with
  | @hit g c os _ get answered entry rest =>
      refine .inl ⟨g, by simp, c, get, answered, entry, ?_⟩
      rcases rest with ⟨-, hout⟩ | ⟨o, -, -, hout⟩
      · exact absurd hout (by simp)
      · unfold hitResponse at hout
        by_cases hc : c.userId ≠ u
        · rw [if_pos hc] at hout
          exact absurd hout (by simp)
        · rw [if_neg hc] at hout
          cases hout
          exact ⟨not_not.mp hc, rfl⟩
  | failed _ _ _ _ rest =>
      rcases rest with ⟨-, hout⟩ | ⟨o, -, -, hout⟩
      · exact absurd hout (by simp)
      · exact absurd hout (by simp)
  | refused _ _ _ _ _ rest =>
      rcases rest with ⟨-, hout⟩ | ⟨o, -, -, hout⟩
      · exact absurd hout (by simp)
      · exact absurd hout (by simp)
  | @filled g d f x os _ get _ select fault row owner set rest =>
      refine .inr ⟨d, by simp, x, select, fault, row, owner, ?_⟩
      rcases rest with ⟨-, hout⟩ | ⟨o, -, -, hout⟩
      · exact absurd hout (by simp)
      · cases hout
        rfl

/-- A balance request that has ended has left its whole script. -/
theorem getBalance_ended {db₀ : Db} {w : LedgerWorld} (h : ReachableFrom db₀ w) {i : Sid}
    {id u : Uuid} {r : Except Exn Reply} (hs : ended w i = some (.getBalance id u, r)) :
    BalanceScript id u (w.store.script i) (some r) := by
  obtain ⟨ws, htrail⟩ := ended_trail h hs rfl
  rw [← outcome_ofExcept r]
  exact getBalance_trail htrail

/-- **A balance that is reported is one the wallet has had, and it is reported to the
wallet's owner.** -/
theorem reachable_reported (db₀ : Db) (w : LedgerWorld) (h : ReachableFrom db₀ w) (i : Sid)
    (id u : Uuid) (r : Reply) (hs : ended w i = some (.getBalance id u, .ok r)) :
    (∃ y, w.store.db.wallets.get id = some y ∧ y.userId = u)
    ∧ ∃ o ∈ w.store.script i, ∃ n ≤ o.clock, ∃ x,
        (w.store.past engine db₀ n).wallets.get id = some x ∧ x.userId = u
        ∧ r = .balance (.ofWallet x) := by
  have hpast : ∃ o ∈ w.store.script i, ∃ n ≤ o.clock, ∃ x,
      (w.store.past engine db₀ n).wallets.get id = some x ∧ x.userId = u
      ∧ r = .balance (.ofWallet x) := by
    rcases (getBalance_ended h hs).answered with ⟨g, hg, c, -, -, hc, hu, rfl⟩
      | ⟨d, hd, x, -, -, hx, hu, rfl⟩
    · obtain ⟨n, hn, x, hx, rfl⟩ := (cache_had h).2 g (mem_script.mp hg).1 id c hc
      exact ⟨g, hg, n, hn, x, hx, hu, rfl⟩
    · obtain ⟨-, hdb⟩ := h.past.2 d (mem_script.mp hd).1
      exact ⟨d, hd, d.clock, Nat.le_refl _, x, by rw [← system_toEngine, ← hdb]; exact hx, hu, rfl⟩
  refine ⟨?_, hpast⟩
  -- the owner of a wallet never changes
  obtain ⟨o, ho, n, hn, x, hx, hu, -⟩ := hpast
  have hlen := (h.past.2 o (mem_script.mp ho).1).1
  have hnow := (reachable_settled h).chain (m := n) (n := w.store.commits.length) (by omega)
  obtain ⟨y, hy, hsame⟩ := Evolves.account ⟨_, hnow⟩ hx
  exact ⟨y, by rw [h.past.1]; exact hy, hsame.userId.trans hu⟩

/-- The balance is read and cached; a deposit's `delete` fails; the entry is read again. -/
def unbroken : List LedgerAction :=
  opening ++ [.spawn (.getBalance 31 12)] ++ advance 5 4 60
    ++ [.spawn (.deposit 31 12 (depositOf 50))] ++ advance 6 12 70
    ++ [.exec 6 { cacheFault := some false }, .exec 6 {}]
    ++ [.spawn (.getBalance 31 12)] ++ advance 7 2 90

omit [Runtime] in
theorem unbroken_reported : ∃ w, (@ReachableFrom plainRuntime .empty w
    ∧ w.store.db.wallets.rows.map Wallet.availableBalance = [150, 0]
    ∧ ended w 7 = some (.getBalance 31 12, .ok (.balance ⟨31, "INR", 100, 0, 0⟩)))
    ∧ (∃ y, w.store.db.wallets.get 31 = some y ∧ y.userId = 12)
    ∧ ∃ o ∈ w.store.script 7, ∃ n ≤ o.clock, ∃ x,
        (w.store.past engine .empty n).wallets.get 31 = some x ∧ x.userId = 12
        ∧ Reply.balance ⟨31, "INR", 100, 0, 0⟩ = .balance (.ofWallet x) := by
  obtain ⟨w, hr, hw⟩ := exists_runPlain .empty unbroken
    (fun w => (w.store.db.wallets.rows.map Wallet.availableBalance, ended w 7))
    (v := ([150, 0], some (.getBalance 31 12, .ok (.balance ⟨31, "INR", 100, 0, 0⟩))))
    (by decide +kernel)
  have hend := congrArg Prod.snd hw
  exact ⟨w, ⟨hr, congrArg Prod.fst hw, hend⟩, @reachable_reported plainRuntime .empty w
    hr 7 31 12 _ hend⟩

end WalletLedger
