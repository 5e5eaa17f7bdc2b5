import WalletLedger.Proof.Ledger

/-!
# What a request changes

A request acts on the committed state through its commits and through nothing
else, so its effect is the effect of the write sets that carry its session's id.
This module says what those are: which wallets a commit can touch and on whose
behalf, and that a call either commits its whole movement or nothing.
-/

namespace WalletLedger

open Isolation

variable [Runtime]

/-! ## Whose wallets -/

/-- The wallets whose balance a request may change. -/
def Request.touched : Request → List Uuid
  | .deposit w _ _ => [w]
  | .transfer w _ data _ => [w, data.recipientWalletId]
  | .withdraw w _ _ _ => [w]
  | _ => []

/-- The wallet a request may take money from. -/
def Request.debited : Request → Option Uuid
  | .transfer w _ _ _ => some w
  | .withdraw w _ _ _ => some w
  | _ => none

/-- What the commit of a request may do to the wallets. -/
structure Framed (t : Request) (db db' : Db) : Prop where
  /-- Identity, owner, currency and locked balance are fixed. -/
  account : ∀ id x, db.wallets.get id = some x → ∃ y, db'.wallets.get id = some y ∧ SameAccount x y
  /-- A wallet the request does not name keeps its row. -/
  others : ∀ id x, db.wallets.get id = some x → id ∉ t.touched → db'.wallets.get id = some x
  /-- Money leaves a wallet only at its owner's request. -/
  debits : ∀ id x y, db.wallets.get id = some x → db'.wallets.get id = some y →
    y.availableBalance < x.availableBalance → t.debited = some id ∧ x.userId = t.requester
  /-- A deposit goes to a wallet of its requester. -/
  deposits : ∀ w u data, t = .deposit w u data → ∀ id x y, db.wallets.get id = some x →
    db'.wallets.get id = some y → y.availableBalance ≠ x.availableBalance → id = w ∧ x.userId = u
  /-- A new wallet is empty. -/
  opened : ∀ id y, db.wallets.get id = none → db'.wallets.get id = some y →
    y.availableBalance = 0 ∧ y.lockedBalance = 0 ∧ ∃ owner data, t = .createWallet owner data

omit [Runtime] in
/-- A commit that leaves the wallets alone. -/
theorem Framed.same {t : Request} {db db' : Db} (h : db'.wallets = db.wallets) :
    Framed t db db' where
  account := fun id x hx => ⟨x, by rw [h]; exact hx, .refl x⟩
  others := fun id x hx _ => by rw [h]; exact hx
  debits := by
    intro id x y hx hy hlt
    rw [h, hx] at hy
    cases hy
    exact absurd hlt (Int.lt_irrefl _)
  deposits := by
    intro w u data _ id x y hx hy hne
    rw [h, hx] at hy
    cases hy
    exact absurd rfl hne
  opened := by
    intro id y hx hy
    rw [h, hx] at hy
    exact absurd hy (by simp)

/-- The sides of a requested movement are wallets the request names. -/
theorem Request.Moves.touches {t : Request} {mv : Movement} (h : t.Moves mv) {id : Uuid}
    (hid : mv.source.walletId = some id ∨ mv.target.walletId = some id) : id ∈ t.touched := by
  cases t with
  | deposit w u data =>
      obtain ⟨x, hx, -, -, rfl⟩ := h
      simpa [Side.walletId, Request.touched, hx, eq_comm] using hid
  | transfer w u data k =>
      obtain ⟨x, y, hx, -, -, hy, -, -, rfl⟩ := h
      simpa [Side.walletId, Request.touched, hx, hy, eq_comm] using hid
  | withdraw w u data k =>
      obtain ⟨x, hx, -, -, rfl⟩ := h
      simpa [Side.walletId, Request.touched, hx, eq_comm] using hid
  | _ => exact absurd h (by simp [Request.Moves])

/-- The source of a requested movement is a wallet of the requester. -/
theorem Request.Moves.source {t : Request} {mv : Movement} (h : t.Moves mv) {w : Wallet}
    (hw : mv.source = .wallet w) : t.debited = some w.id ∧ w.userId = t.requester := by
  cases t with
  | deposit _ u data =>
      obtain ⟨x, -, -, -, rfl⟩ := h
      exact absurd hw (by simp)
  | transfer _ u data k =>
      obtain ⟨x, y, hx, hu, -, -, -, -, rfl⟩ := h
      cases hw
      exact ⟨congrArg some hx.symm, hu⟩
  | withdraw _ u data k =>
      obtain ⟨x, hx, hu, -, rfl⟩ := h
      cases hw
      exact ⟨congrArg some hx.symm, hu⟩
  | _ => exact absurd h (by simp [Request.Moves])

omit [Runtime] in
theorem Side.delta_eq_zero {s : Side} {d : Int} {id : Uuid} (h : s.walletId ≠ some id) :
    s.delta d id = 0 := if_neg h

theorem Framed.movement {t : Request} {mv : Movement} {m : Minted} {db : Db} (hmv : t.Moves mv)
    (hok : mv.Ok db) (hu : m.Unused db) : Framed t db (db.applyAll (mv.writes m)) := by
  have hp := Movement.posted hok.shaped hu
  have hpos := hok.amount_pos
  refine ⟨fun id x hx => ?_, fun id x hx hid => ?_, fun id x y hx hy hlt => ?_,
    fun w u data ht id x y hx hy hne => ?_, fun id y hx hy => ?_⟩
  · obtain ⟨y, hy, hsame, -, -⟩ := balance_posted hok hp hx
    exact ⟨y, hy, hsame⟩
  · obtain ⟨y, hy, -, -, hkeep⟩ := balance_posted hok hp hx
    rw [hkeep (fun h => hid (hmv.touches (.inl h))) (fun h => hid (hmv.touches (.inr h)))] at hy
    exact hy
  · obtain ⟨y', hy', -, hb, -⟩ := balance_posted hok hp hx
    rw [hy] at hy'
    cases hy'
    by_cases hs : mv.source.walletId = some id
    · cases hw : mv.source with
      | funding => rw [hw] at hs; exact absurd hs (by simp [Side.walletId])
      | wallet v =>
          rw [hw] at hs
          have hid : v.id = id := by simpa [Side.walletId] using hs
          obtain ⟨hdeb, howner⟩ := hmv.source hw
          have hrow := (hok.source v hw).1
          rw [hid, hx] at hrow
          cases hrow
          exact ⟨by rw [hdeb, hid], howner⟩
    · -- only the source loses money
      have hnonneg : 0 ≤ mv.target.delta mv.amount id := by
        unfold Side.delta
        split
        · exact hpos.le
        · exact le_rfl
      rw [Side.delta_eq_zero hs] at hb
      omega
  · subst ht
    obtain ⟨v, hid, howner, -, rfl⟩ := (show _ from hmv)
    obtain ⟨y', hy', -, -, hkeep⟩ := balance_posted hok hp hx
    rw [hy] at hy'
    cases hy'
    by_cases hw : v.id = id
    · have hrow := (hok.target v rfl).1
      rw [hw, hx] at hrow
      cases hrow
      exact ⟨by rw [← hid, hw], howner⟩
    · have hrow : y = x := hkeep (by simp [Side.walletId]) (by simpa [Side.walletId] using hw)
      exact absurd (by rw [hrow]) hne
  · rw [absent_posted hp hx] at hy
    exact absurd hy (by simp)

/-- **A legal commit keeps to the wallets its request may touch.** -/
theorem Legal.framed {t : Request} {db : Db} {ws : List Write} (h : Legal t db ws) :
    Framed t db (db.applyAll ws) := by
  cases t with
  | register data =>
      obtain ⟨u, -, -, -, -, rfl⟩ := h
      exact .same rfl
  | createWallet owner data =>
      obtain ⟨v, -, -, hb, hl, hfree, -, rfl⟩ := h
      have hkeep : ∀ id x, db.wallets.get id = some x →
          (db.applyAll [.insertWallet v]).wallets.get id = some x :=
        fun id x hx => Table.get_insert_of_some hx
      refine ⟨fun id x hx => ⟨x, hkeep id x hx, .refl x⟩, fun id x hx _ => hkeep id x hx, ?_,
        fun _ _ _ ht => absurd ht (by simp), ?_⟩
      · intro id x y hx hy hlt
        rw [hkeep id x hx] at hy
        cases hy
        exact absurd hlt (Int.lt_irrefl _)
      · intro id y hx hy
        by_cases hid : v.id = id
        · subst hid
          have hy' : (db.wallets.insert v).get v.id = some y := hy
          rw [Table.get_insert_self hfree] at hy'
          cases hy'
          exact ⟨hb, hl, owner, data, rfl⟩
        · have hy' : (db.wallets.insert v).get id = some y := hy
          rw [Table.get_insert_ne hid, hx] at hy'
          exact absurd hy' (by simp)
  | deposit | transfer | withdraw | getBalance | listTransactions | reconcile =>
      obtain ⟨mv, m, hmv, hok, hu, rfl⟩ := h
      exact .movement hmv hok hu
  | publish | handleEvent | analyticsConsumer =>
      refine .same (sameBooks_applyAll db (fun w hw he => ?_)).wallets
      exact Area.noConfusion (he.symm.trans (h w hw))

/-- The locked balance of every wallet stays zero. -/
theorem Chain.unlocked {cs : List LedgerCommit} {db : Db} (h : Chain .empty cs db) :
    ∀ x ∈ db.wallets.rows, x.lockedBalance = 0 := by
  refine h.induct (P := fun d => ∀ x ∈ d.wallets.rows, x.lockedBalance = 0) ?_ ?_
  · intro x hx
    exact absurd hx (by simp [Db.empty])
  · intro t d ws hl hd y hy
    have hget := Table.get_of_mem hy
    cases hx : d.wallets.get y.id with
    | none => exact (hl.framed.opened y.id y hx hget).2.1
    | some x =>
        obtain ⟨y', hy', hsame⟩ := hl.framed.account y.id x hx
        rw [hget] at hy'
        cases hy'
        rw [hsame.lockedBalance]
        exact hd x (Table.mem_of_get hx)

/-- Accounts live on through a history. -/
theorem Evolves.account {db db' : Db} (h : Evolves db db') {id : Uuid} {x : Wallet}
    (hx : db.wallets.get id = some x) : ∃ y, db'.wallets.get id = some y ∧ SameAccount x y := by
  obtain ⟨cs, hc⟩ := h
  refine hc.induct (P := fun d => ∃ y, d.wallets.get id = some y ∧ SameAccount x y)
    ⟨x, hx, .refl x⟩ ?_
  rintro t d ws hl ⟨y, hy, hsame⟩
  obtain ⟨z, hz, hsame'⟩ := hl.framed.account id y hy
  exact ⟨z, hz, hsame.trans hsame'⟩

omit [Runtime] in
/-- The state after one more commit. -/
theorem past_succ {s : LedgerStore} {db₀ : Db} {n : Nat} {c : LedgerCommit}
    (h : s.commits[n]? = some c) :
    s.past engine db₀ (n + 1) = (s.past engine db₀ n).applyAll c.writes := by
  unfold Store.past
  rw [List.take_add_one, h, List.flatMap_append, Engine.applyAll_append]
  simp

/-- Every commit was legal on the state before it. -/
theorem Settled.legal {db₀ : Db} {s : LedgerStore} (h : Settled db₀ s) {n : Nat} {c : LedgerCommit}
    (hc : s.commits[n]? = some c) : Legal c.tag (s.past engine db₀ n) c.writes := by
  have hchain := h.history
  obtain ⟨hn, hget⟩ := List.getElem?_eq_some_iff.mp hc
  rw [← List.take_append_drop n s.commits, List.drop_eq_getElem_cons hn, hget] at hchain
  exact hchain.at_commit

/-- The states of a run, each on the way to the next. -/
theorem Settled.chain {db₀ : Db} {s : LedgerStore} (h : Settled db₀ s) {m n : Nat} (hmn : m ≤ n) :
    Chain (s.past engine db₀ m) ((s.commits.take n).drop m) (s.past engine db₀ n) := by
  have hchain := h.history
  rw [← List.take_append_drop n s.commits] at hchain
  obtain ⟨d, hd, -⟩ := hchain.split
  have hpast : s.past engine db₀ n = d := hd.eq.symm
  rw [← hpast, ← List.take_append_drop m (s.commits.take n), List.take_take,
    Nat.min_eq_left hmn] at hd
  obtain ⟨d', hd', hrest⟩ := hd.split
  have hpast' : s.past engine db₀ m = d' := hd'.eq.symm
  rw [hpast']
  exact hrest

/-- **Every commit of every run touches only the wallets its request names, takes money
only from a wallet of its requester, and leaves every account otherwise as it was.** -/
theorem reachable_framed (w : LedgerWorld) (h : ReachableFrom .empty w) :
    w.store.db = w.store.past engine .empty w.store.commits.length
    ∧ (∀ n c, w.store.commits[n]? = some c →
      Framed c.tag (w.store.past engine .empty n) (w.store.past engine .empty (n + 1)))
    ∧ (∀ m n, m ≤ n → ∀ id x, (w.store.past engine .empty m).wallets.get id = some x →
      ∃ y, (w.store.past engine .empty n).wallets.get id = some y ∧ SameAccount x y)
    ∧ ∀ n, ∀ x ∈ (w.store.past engine .empty n).wallets.rows, x.lockedBalance = 0 := by
  have hset := reachable_settled h
  refine ⟨h.past.1, fun n c hc => ?_, fun m n hmn id x hx => ?_, fun n => ?_⟩
  · rw [past_succ hc]
    exact (hset.legal hc).framed
  · exact Evolves.account ⟨_, hset.chain hmn⟩ hx
  · have hchain := hset.chain (Nat.zero_le n)
    exact hchain.unlocked

omit [Runtime] in
theorem opening_framed : ∃ w, (@ReachableFrom plainRuntime .empty w
    ∧ w.store.commits.map (fun c => c.tag.touched) = [[], [], [], [], [31]])
    ∧ w.store.db = w.store.past engine .empty w.store.commits.length
    ∧ (∀ n c, w.store.commits[n]? = some c →
      Framed c.tag (w.store.past engine .empty n) (w.store.past engine .empty (n + 1)))
    ∧ (∀ m n, m ≤ n → ∀ id x, (w.store.past engine .empty m).wallets.get id = some x →
      ∃ y, (w.store.past engine .empty n).wallets.get id = some y ∧ SameAccount x y)
    ∧ ∀ n, ∀ x ∈ (w.store.past engine .empty n).wallets.rows, x.lockedBalance = 0 := by
  obtain ⟨w, hr, hw⟩ := exists_runPlain .empty opening
    (fun w => w.store.commits.map (fun c => c.tag.touched)) (v := [[], [], [], [], [31]])
    (by decide +kernel)
  exact ⟨w, ⟨hr, hw⟩, @reachable_framed plainRuntime w hr⟩

/-! ## All or nothing -/

/-- The commits since an earlier world. -/
def since (w₀ w : LedgerWorld) : List LedgerCommit :=
  w.store.commits.drop w₀.store.commits.length

/-- The database is what the other sessions have made of it. -/
structure Untouched (i : Sid) (w₀ w : LedgerWorld) : Prop where
  others : ∀ c ∈ since w₀ w, c.sid ≠ i
  db : w.store.db = w₀.store.db.applyAll ((since w₀ w).flatMap Commit.writes)

/-- Session `i` has committed the movement once and nothing else. -/
structure BookedOnce (i : Sid) (t : Request) (w₀ w : LedgerWorld) (mv : Movement) (m : Minted) :
    Prop where
  moves : t.Moves mv
  once : ∃ pre post : List LedgerCommit, since w₀ w = pre ++ ⟨i, t, mv.writes m⟩ :: post
    ∧ (∀ c : LedgerCommit, c ∈ pre ++ post → c.sid ≠ i)
    ∧ (w₀.store.db.applyAll (pre.flatMap Commit.writes)).transactions.get m.txn = none
    ∧ Posted mv m (w₀.store.db.applyAll (pre.flatMap Commit.writes))
        (w₀.store.db.applyAll (pre.flatMap Commit.writes ++ mv.writes m))
  db : w.store.db = w₀.store.db.applyAll ((since w₀ w).flatMap Commit.writes)

/-- How the outcome of a call and its effect go together. -/
inductive AllOrNothing (i : Sid) (t : Request) (w₀ w : LedgerWorld) : Except Exn Reply → Prop where
  /-- An exception, and no effect. -/
  | raised {e : Exn} (untouched : Untouched i w₀ w) : AllOrNothing i t w₀ w (.error e)
  /-- A transaction that was there already, and no effect. -/
  | replayed {txn : Transaction} {wallet : Option Wallet} (untouched : Untouched i w₀ w)
      (found : ∃ o ∈ w.store.trace, o.sid = i ∧ o.db.transactions.get txn.id = some txn) :
      AllOrNothing i t w₀ w (.ok (.moved txn wallet))
  /-- A new transaction, and all of its movement. -/
  | booked {mv : Movement} {m : Minted} {wallet : Option Wallet}
      (booked : BookedOnce i t w₀ w mv m) :
      AllOrNothing i t w₀ w (.ok (.moved (mv.txn m) wallet))

omit [Runtime] in
/-- A money session commits at most once. -/
theorem commit_once {cs : List LedgerCommit} {i : Sid} {t : Request} {pre post : List LedgerCommit}
    {ws : List Write} (ht : t.movesMoney = true) (hcs : cs = pre ++ ⟨i, t, ws⟩ :: post)
    (honce : cs.Pairwise (fun a b => a.sid = b.sid → b.tag.movesMoney = false))
    (htag : ∀ c ∈ cs, c.sid = i → c.tag = t) : ∀ c ∈ pre ++ post, c.sid ≠ i := by
  subst hcs
  obtain ⟨-, hpost, hcross⟩ := List.pairwise_append.mp honce
  intro c hc hi
  rcases List.mem_append.mp hc with hc | hc
  · have hfalse := hcross c hc ⟨i, t, ws⟩ (by simp) hi
    rw [ht] at hfalse
    exact absurd hfalse (by simp)
  · have hfalse := (List.pairwise_cons.mp hpost).1 c hc hi.symm
    rw [htag c (by simp [hc]) hi, ht] at hfalse
    exact absurd hfalse (by simp)

omit [Runtime] in
theorem ended_sess {w : LedgerWorld} {i : Sid} {t : Request} {r : Except Exn Reply}
    (h : ended w i = some (t, r)) : ∃ p, w.sess i = some (t, p) := by
  unfold ended at h
  obtain ⟨⟨t', p⟩, hsess, h⟩ := Option.bind_eq_some_iff.mp h
  obtain ⟨r', -, he⟩ := Option.map_eq_some_iff.mp h
  cases he
  exact ⟨p, hsess⟩

/-- **A money request has its whole effect or none**: none if it raises or replays, exactly
its movement if it returns a new transaction. -/
theorem reachable_allOrNothing (db₀ : Db) (w₀ w : LedgerWorld) (h₀ : ReachableFrom db₀ w₀)
    (hl : Later system w₀ w) (i : Sid) (hi : w₀.next ≤ i) (t : Request) (ht : t.movesMoney = true)
    (r : Except Exn Reply) (hs : ended w i = some (t, r))
    (hread : ∀ o, AfterCommit i w.store o → o.inp.fault = none) : AllOrNothing i t w₀ w r := by
  have h : ReachableFrom db₀ w := h₀.later hl
  have hset := reachable_settled h
  obtain ⟨cs, os, hcs, -, hdb, -⟩ := hl.history
  have hsince : since w₀ w = cs := by rw [since, hcs, List.drop_left]
  have hdb' : w.store.db = w₀.store.db.applyAll ((since w₀ w).flatMap Commit.writes) := by
    rw [hsince]; exact hdb
  have hquiet : Quiet i w.store → Untouched i w₀ w := by
    intro hq
    refine ⟨fun c hc => hq c ?_, hdb'⟩
    rw [hcs, ← hsince]
    exact List.mem_append_right _ hc
  cases reachable_moved h ht hs with
  | raised reads quiet =>
      rcases quiet with hq | ⟨o, ho, hf⟩
      · exact .raised (hquiet hq)
      · exact absurd (hread o ho) hf
  | replayed key reads misses hit read quiet =>
      rename_i k txn pre o o'
      have hmem : o ∈ readsOf i w.store := by rw [reads]; simp
      obtain ⟨ho, hoi, -⟩ := mem_readsOf.mp hmem
      exact .replayed (hquiet quiet) ⟨o, ho, hoi, (Db.transactionByKey_some hit.2.2).1⟩
  | own reads moves commit id owner =>
      rename_i mv m x
      -- the session is younger than `w₀`, so its commit is among those since then
      have hmem : ⟨i, t, mv.writes m⟩ ∈ since w₀ w := by
        rw [hsince]
        rw [hcs, List.mem_append] at commit
        rcases commit with hold | hnew
        · exact absurd (h₀.signed.commits _ hold) (Nat.not_lt.mpr hi)
        · exact hnew
      obtain ⟨pre, post, hsplit⟩ := List.append_of_mem hmem
      have hcommits : w.store.commits = w₀.store.commits
          ++ (pre ++ ⟨i, t, mv.writes m⟩ :: post) := by
        rw [hcs, ← hsince, hsplit]
      obtain ⟨p, hsess⟩ := ended_sess hs
      have hone := commit_once ht (hcommits.trans (List.append_assoc _ _ _).symm) hset.once
        (h.signed.tags i t p hsess).1
      refine .booked ⟨moves, ⟨pre, post, hsplit, fun c hc => hone c ?_, ?_⟩, hdb'⟩
      · rw [List.append_assoc]
        exact List.mem_append_right _ hc
      -- the commit was legal on the state it met
      have hchain := hset.history
      rw [hcommits, ← List.append_assoc] at hchain
      have hlegal := hchain.at_commit
      have hbase : Db.applyAll db₀ ((w₀.store.commits ++ pre).flatMap Commit.writes)
          = w₀.store.db.applyAll (pre.flatMap Commit.writes) := by
        rw [List.flatMap_append, Db.applyAll_append, ← (reachable_settled h₀).history.eq]
      rw [hbase] at hlegal
      obtain ⟨mv', m', hmv', hok, hu, hws⟩ := hlegal.movement ht
      have hunused : m.Unused (w₀.store.db.applyAll (pre.flatMap Commit.writes)) := hu.ofWrites hws
      refine ⟨hunused.txn, ?_⟩
      rw [Db.applyAll_append]
      exact Movement.posted moves.shaped hunused

omit [Runtime] in
theorem AfterCommit.mem {i : Sid} {s : LedgerStore} {o : LedgerObs} (h : AfterCommit i s o) :
    o ∈ s.trace := by
  obtain ⟨pre, post, x, he, -, ho, -⟩ := h
  rw [he]
  exact List.mem_append_right _ (List.mem_cons_of_mem _ ho)

/-- The deposit again, with the connection lost when the flush comes to the wallet. -/
def brokenOff : List LedgerAction :=
  [.spawn (.deposit 31 12 (depositOf 100))] ++ advance 4 6 50
    ++ [.exec 4 { fault := some .operational }, .exec 4 {}]

omit [Runtime] in
theorem payIn_allOrNothing :
    (∃ w₀ w, (@ReachableFrom plainRuntime .empty w₀ ∧ Later (@system plainRuntime) w₀ w
      ∧ w₀.next = 4 ∧ ended w 4 = some (.deposit 31 12 ⟨100, "INR", by decide, by decide⟩,
          .ok (.moved ⟨51, .deposit, .completed, "INR", none⟩
            (some ⟨31, 12, "INR", 100, 0, 0, 0⟩))))
      ∧ @AllOrNothing plainRuntime 4 (.deposit 31 12 ⟨100, "INR", by decide, by decide⟩) w₀ w
          (.ok (.moved ⟨51, .deposit, .completed, "INR", none⟩
            (some ⟨31, 12, "INR", 100, 0, 0, 0⟩))))
    ∧ ∃ w₀ w, (@ReachableFrom plainRuntime .empty w₀ ∧ Later (@system plainRuntime) w₀ w
      ∧ w₀.next = 4 ∧ ended w 4 = some (.deposit 31 12 ⟨100, "INR", by decide, by decide⟩,
          .error (.db .operational)))
      ∧ @AllOrNothing plainRuntime 4 (.deposit 31 12 ⟨100, "INR", by decide, by decide⟩) w₀ w
          (.error (.db .operational)) := by
  constructor
  · obtain ⟨w₀, w, h₀, hl, hw⟩ := exists_laterPlain .empty accounts payIn
      (fun w₀ w => (w₀.next, ended w 4, w.store.trace.all (fun o => o.inp.fault.isNone)))
      (v := (4, some (.deposit 31 12 ⟨100, "INR", by decide, by decide⟩,
        .ok (.moved ⟨51, .deposit, .completed, "INR", none⟩
          (some ⟨31, 12, "INR", 100, 0, 0, 0⟩))), true))
      (by decide +kernel)
    have hnext := congrArg Prod.fst hw
    have hend := congrArg (fun p => p.2.1) hw
    have hall := List.all_eq_true.mp (congrArg (fun p => p.2.2) hw)
    have hread : ∀ o, AfterCommit 4 w.store o → o.inp.fault = none :=
      fun o ho => Option.isNone_iff_eq_none.mp (hall o ho.mem)
    exact ⟨w₀, w, ⟨h₀, hl, hnext, hend⟩, @reachable_allOrNothing plainRuntime .empty w₀ w h₀ hl 4
      (Nat.le_of_eq hnext) _ rfl _ hend hread⟩
  · obtain ⟨w₀, w, h₀, hl, hw⟩ := exists_laterPlain .empty accounts brokenOff
      (fun w₀ w => (w₀.next, ended w 4,
        w.store.trace.all (fun o => !decide (o.sid = 4 ∧ o.stmt = .commit))))
      (v := (4, some (.deposit 31 12 ⟨100, "INR", by decide, by decide⟩,
        .error (.db .operational)), true)) (by decide +kernel)
    have hnext := congrArg Prod.fst hw
    have hend := congrArg (fun p => p.2.1) hw
    have hall := List.all_eq_true.mp (congrArg (fun p => p.2.2) hw)
    -- the session never comes to its commit
    have hread : ∀ o, AfterCommit 4 w.store o → o.inp.fault = none := by
      rintro o ⟨pre, post, x, he, ⟨hi, hq, -⟩, -⟩
      have hx := hall x (by rw [he]; simp)
      simp [hi, hq] at hx
    exact ⟨w₀, w, ⟨h₀, hl, hnext, hend⟩, @reachable_allOrNothing plainRuntime .empty w₀ w h₀ hl 4
      (Nat.le_of_eq hnext) _ rfl _ hend hread⟩

end WalletLedger
