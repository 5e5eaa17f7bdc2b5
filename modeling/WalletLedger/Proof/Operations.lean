import WalletLedger.Proof.Booking

/-!
# The money operations

Each operation is executed once, against arbitrary interference, and ends in one
of the three ways of `Moved`.

What makes the commit legal is that everything its legality depends on is locked
by then: the wallet rows since `FOR UPDATE`, the unique keys since their INSERTs.
The replay has no such protection, so all that can be said about it is which
state it met.
-/

namespace WalletLedger

open Isolation Prog

variable [Runtime] {db₀ : Db} {i : Sid} {t : Request} {key : Option String} {ws : List Write}
  {wals : List Wallet} {β : Type}

/-! ## Locking wallets -/

/-- A row read `FOR UPDATE` is held as read. -/
theorem triple_getWithLock {id : Uuid} :
    Triple engine (contract db₀) i t (Mid i key [] wals []) (WalletRepository.getWithLock id)
      (Ends (fun r s => (∀ w ∈ r, w.id = id) ∧ Mid i key [] (r.toList ++ wals) [] s)
        (Missed i key)) := by
  refine Mid.triple trivial (by simp) (fun _ => .and (.const _) Mid.stable) ?_
  intro s s' inp e r hm he ha hdb hs _
  cases he
  obtain ⟨rfl, he⟩ := readsLocked_ok ha
  rw [he] at hs
  obtain ⟨hm', hl⟩ := hs rfl
  have hrow : ∀ w ∈ s.db.wallets.get id, w.id = id := fun w hw => Table.key_of_get hw
  refine ⟨hrow, hm'.pending, ?_, hm'.frees, hm'.missed, hm'.legs⟩
  intro w hw
  rcases List.mem_append.mp hw with hw | hw
  · have hget : s.db.wallets.get id = some w := by simpa using hw
    have hid : w.id = id := hrow w hget
    rw [hid, hdb]
    exact ⟨hl _ (by simp [hget]), hget⟩
  · exact hm'.wals w hw

/-- Locking several rows: whatever was found is held. -/
theorem triple_lockEach {ids : List Uuid} :
    Triple engine (contract db₀) i t (Mid i key [] wals []) (WalletRepository.lockEach ids)
      (Ends (fun locked s => ∃ wals', (wals ⊆ wals'
          ∧ ∀ p ∈ locked, ∀ w ∈ p.2, w.id = p.1 ∧ w ∈ wals') ∧ Mid i key [] wals' [] s)
        (Missed i key)) := by
  induction ids generalizing wals with
  | nil =>
      exact .ret Mid.stable (fun s _ h => ⟨wals, ⟨fun _ h => h, by simp⟩, h⟩)
  | cons id ids ih =>
      refine triple_next Ends.lenient triple_getWithLock (fun r => ?_)
      rintro s hi ⟨hr, hm⟩
      refine triple_next Ends.lenient ih (fun rest => ?_) s hi hm
      rintro s hi ⟨wals', ⟨hsub, hrest⟩, hm⟩
      refine Triple.ret Mid.stable (fun s _ hm => ⟨wals', ⟨?_, ?_⟩, hm⟩) s hi hm
      · exact fun w hw => hsub (List.mem_append_right _ hw)
      · intro p hp w hw
        rcases List.mem_cons.mp hp with rfl | hp
        · exact ⟨hr w hw, hsub (List.mem_append_left _ (by simpa using hw))⟩
        · exact hrest p hp w hw

omit [Runtime] in
/-- A row found by `lookup` is one of the locked rows. -/
theorem mem_of_lookup {locked : List (Uuid × Option Wallet)} {id : Uuid} {w : Wallet}
    (h : (locked.lookup id).join = some w) : (id, some w) ∈ locked := by
  have h' : locked.lookup id = some (some w) := by
    cases hl : locked.lookup id with
    | none => rw [hl] at h; exact absurd h (by simp)
    | some r => rw [hl] at h; exact congrArg some h
  obtain ⟨l₁, l₂, rfl, -⟩ := List.lookup_eq_some_iff.mp h'
  simp

/-! ## The replay -/

/-- How `replay` leaves the operation: to go on, or with its answer. -/
def Replayed (i : Sid) (t : Request) :
    Except Exn (Option (Transaction × Option Wallet)) → LedgerStore → Prop
  | .ok none, s => Mid i t.key [] [] [] s
  | .ok (some r), s => Moved i t s (.ok (Reply.ofMoved r))
  | .error e, s => Moved i t s (.error e)

theorem Moved.stable {r : Except Exn Reply} :
    Stable engine (contract db₀) i (fun s => Moved i t s r) := by
  intro s s' h hr
  obtain ⟨l, hl, -, hn⟩ := hr.frame.commits
  obtain ⟨l', hl', -⟩ := hr.frame.trace
  exact h.mono (readsOf_frame hr.frame) ⟨l, hl, hn⟩ ⟨l', hl'⟩

/-- A lookup has hit, and nothing else has happened yet. -/
structure Hit (i : Sid) (t : Request) (txn : Transaction) (s : LedgerStore) : Prop where
  pending : s.pending i = []
  quiet : Quiet i s
  reads : ∃ k pre o, t.key = some k ∧ readsOf i s = pre ++ [o] ∧ (∀ o ∈ pre, Unbound t.key o)
    ∧ o.stmt = .selectTransactionByKey k ∧ o.inp.fault = none
    ∧ o.db.transactionByKey k = some txn

theorem Hit.stable {txn : Transaction} : Stable engine (contract db₀) i (Hit i t txn) := by
  intro s s' h hr
  refine ⟨hr.frame.pending.trans h.pending, Quiet.stable s s' h.quiet hr, ?_⟩
  rw [readsOf_frame hr.frame]
  exact h.reads

/-- A read of the replay that failed is the operation's exception. -/
theorem Moved.ofFault {s : LedgerStore} {l : List LedgerObs} {o : LedgerObs} {x : DbError} {e : Exn}
    (hreads : readsOf i s = l ++ [o]) (hf : o.inp.fault = some x) (hquiet : Quiet i s) :
    Moved i t s (.error e) := by
  refine .raised (.inr ⟨o, ?_, ?_⟩) (.inl hquiet)
  · rw [hreads]; simp
  · rw [hf]; simp

/-- The lookup of a key. -/
theorem triple_lookup {k : String} (hk : t.key = some k) :
    Triple engine (contract db₀) i t (Mid i t.key [] [] [])
      (TransactionRepository.getByIdempotencyKey k)
      (fun r s => match r with
        | .ok none => Mid i t.key [] [] [] s
        | .ok (some txn) => Hit i t txn s
        | .error e => Moved i t s (.error e)) := by
  refine .perform Mid.stable ?_ ?_
  · intro r
    cases r with
    | error e => exact Moved.stable
    | ok r =>
        cases r with
        | none => exact Mid.stable
        | some txn => exact Hit.stable
  intro s inp r s' hi hm hx
  refine ⟨guar_quiet hi hx (by simp), ?_⟩
  have hreads : readsOf i s' = readsOf i s
      ++ [⟨i, t, _, inp, s.db, s.aux, r.isOk, s.commits.length⟩] :=
    readsOf_exec hx
  have hquiet : Quiet i s' := hm.missed.quiet.exec hx (by simp)
  obtain ⟨e, he, hr, -, ho⟩ := exec_outcome hx
  have hview : s.view engine i = s.db := by rw [Store.view, hm.pending]; rfl
  rw [hview] at he
  cases he
  cases hf : inp.fault with
  | some x =>
      have hans : r = .error (.db x) := by rw [hr, reads, hf]; rfl
      subst hans
      exact .ofFault hreads hf hquiet
  | none =>
      have hans : r = .ok (s.db.transactionByKey k) := by rw [hr, reads, hf]
      have hstay : (reads inp s.aux (s.db.transactionByKey k)).ctl = .stay := by
        rw [reads, hf]
      have hw : (reads inp s.aux (s.db.transactionByKey k)).writes = [] := by rw [reads, hf]
      subst hans
      cases ho with
      | commit ctl => rw [hstay] at ctl; exact absurd ctl (by simp)
      | abort ctl => rw [hstay] at ctl; exact absurd ctl (by simp)
      | stay _ db commits pending locks =>
          rw [hw, hm.pending, List.append_nil] at pending
          cases hrow : s.db.transactionByKey k with
          | some txn =>
              exact ⟨pending, hquiet, k, _, _, hk, hreads, hm.missed.reads, rfl, hf, hrow⟩
          | none =>
              refine ⟨pending, by simp, by simp, ⟨?_, hquiet⟩, by simp⟩
              intro o ho
              rw [hreads, List.mem_append, List.mem_singleton] at ho
              rcases ho with ho | rfl
              · exact hm.missed.reads o ho
              · exact ⟨k, hk, rfl, hf, hrow⟩

/-- The read of the path wallet after a hit. -/
theorem triple_replayWallet {txn : Transaction} :
    Triple engine (contract db₀) i t (Hit i t txn) (WalletRepository.getById t.path)
      (fun r s => Moved i t s (r.map (fun w => .moved txn w))) := by
  refine .perform Hit.stable (fun r => Moved.stable) ?_
  intro s inp r s' hi hh hx
  refine ⟨guar_quiet hi hx (by simp), ?_⟩
  have hreads : readsOf i s' = readsOf i s
      ++ [⟨i, t, _, inp, s.db, s.aux, r.isOk, s.commits.length⟩] :=
    readsOf_exec hx
  have hquiet : Quiet i s' := hh.quiet.exec hx (by simp)
  obtain ⟨e, he, hr, -, -⟩ := exec_outcome hx
  have hview : s.view engine i = s.db := by rw [Store.view, hh.pending]; rfl
  rw [hview] at he
  cases he
  obtain ⟨k, pre, o, hk, hpre, hmiss, hstmt, hfault, hrow⟩ := hh.reads
  cases hf : inp.fault with
  | some x =>
      have hans : r = .error (.db x) := by rw [hr, reads, hf]; rfl
      subst hans
      exact .ofFault hreads hf hquiet
  | none =>
      have hans : r = .ok (s.db.wallets.get t.path) := by rw [hr, reads, hf]
      subst hans
      rw [hpre, List.append_assoc, List.singleton_append] at hreads
      exact .replayed hk hreads hmiss ⟨hstmt, hfault, hrow⟩ ⟨rfl, hf⟩ hquiet

/-- **The replay**: to go on if the key is unbound, else what the key leads to. -/
theorem triple_replay :
    Triple engine (contract db₀) i t (Mid i t.key [] [] [])
      (LedgerService.replay t.key t.path) (Replayed i t) := by
  unfold LedgerService.replay
  by_cases htruthy : LedgerService.truthy t.key = true
  · rw [if_pos htruthy]
    obtain ⟨k, hk⟩ : ∃ k, t.key = some k := by
      cases hkey : t.key with
      | none => rw [hkey] at htruthy; exact absurd htruthy (by simp [LedgerService.truthy])
      | some k => exact ⟨k, rfl⟩
    have hget : t.key.getD "" = k := by rw [hk]; rfl
    rw [hget]
    refine .bind (contract_preorder db₀) (triple_lookup hk) (fun r => ?_) (fun e => ?_)
    · cases r with
      | none => exact .ret Mid.stable (fun _ _ h => h)
      | some txn =>
          refine .bind (contract_preorder db₀) triple_replayWallet (fun w => ?_) (fun e => ?_)
          · exact .ret Moved.stable (fun _ _ h => h)
          · exact .raise Moved.stable (fun _ _ h => h)
    · exact .raise Moved.stable (fun _ _ h => h)
  · rw [if_neg htruthy]
    exact .ret Mid.stable (fun _ _ h => h)

/-! ## The commit -/

/-- The movement is possible wherever its wallets are current and its key is free. -/
def Movement.Sound (mv : Movement) : Prop :=
  ∀ db : Db, (∀ w ∈ mv.wallets, db.wallets.get w.id = some w) →
    (∀ k ∈ mv.key, db.transactionByKey k = none) → mv.Fits → mv.Ok db

/-- The movement is committed. -/
structure Done (i : Sid) (t : Request) (mv : Movement) (m : Minted) (s : LedgerStore) : Prop where
  pending : s.pending i = []
  reads : ∀ o ∈ readsOf i s, Unbound t.key o
  /-- The commit is in the history. -/
  seen : ∃ x ∈ s.trace, x.sid = i ∧ x.stmt = .commit ∧ x.ok = true
  commit : ⟨i, t, mv.writes m⟩ ∈ s.commits
  txn : s.db.transactions.get m.txn = some (mv.txn m)
  wallet : ∃ w, s.db.wallets.get t.path = some w ∧ w.userId = t.requester

theorem Done.stable {mv : Movement} {m : Minted} :
    Stable engine (contract db₀) i (Done i t mv m) := by
  intro s s' h hr
  have hev : Evolves s.db s'.db := hr.rely.1
  obtain ⟨w, hw, hu⟩ := h.wallet
  obtain ⟨w', hw', hu', -⟩ := hev.grows.wallets _ w hw
  obtain ⟨l, hl, -⟩ := hr.frame.commits
  obtain ⟨l', hl', -⟩ := hr.frame.trace
  obtain ⟨x, hx, hxi⟩ := h.seen
  refine ⟨hr.frame.pending.trans h.pending, ?_, ⟨x, ?_, hxi⟩, ?_,
    (hev.final h.txn).1, w', hw', hu'.trans hu⟩
  · rw [readsOf_frame hr.frame]; exact h.reads
  · rw [hl']; exact List.mem_append_left _ hx
  · rw [hl]; exact List.mem_append_left _ h.commit

/-- A requested movement involves the requester's own wallet in the path. -/
theorem Request.Moves.path {mv : Movement} (h : t.Moves mv) :
    ∃ w ∈ mv.wallets, w.id = t.path ∧ w.userId = t.requester := by
  cases t with
  | deposit w u data =>
      obtain ⟨x, hid, hu, -, rfl⟩ := h
      exact ⟨x, by simp [Movement.wallets, Side.wallets], hid, hu⟩
  | transfer w u data k =>
      obtain ⟨x, y, hid, hu, -, -, -, -, rfl⟩ := h
      exact ⟨x, by simp [Movement.wallets, Side.wallets], hid, hu⟩
  | withdraw w u data k =>
      obtain ⟨x, hid, hu, -, rfl⟩ := h
      exact ⟨x, by simp [Movement.wallets, Side.wallets], hid, hu⟩
  | _ => exact absurd h (by simp [Request.Moves])

/-- It carries the key of its request. -/
theorem Request.Moves.carries {mv : Movement} (h : t.Moves mv) : mv.key = t.key := by
  cases t with
  | deposit w u data =>
      obtain ⟨x, -, -, -, rfl⟩ := h
      rfl
  | transfer w u data k =>
      obtain ⟨x, y, -, -, -, -, -, -, rfl⟩ := h
      rfl
  | withdraw w u data k =>
      obtain ⟨x, -, -, -, rfl⟩ := h
      rfl
  | _ => exact absurd h (by simp [Request.Moves])

/-- Its sides fit its type. -/
theorem Request.Moves.shaped {mv : Movement} (h : t.Moves mv) : mv.Shaped := by
  cases t with
  | deposit w u data =>
      obtain ⟨x, -, -, -, rfl⟩ := h
      exact ⟨rfl, x, rfl⟩
  | transfer w u data k =>
      obtain ⟨x, y, hx, -, -, hy, -, hne, rfl⟩ := h
      exact ⟨x, y, rfl, rfl, by rw [hx, hy]; exact hne⟩
  | withdraw w u data k =>
      obtain ⟨x, -, -, -, rfl⟩ := h
      exact ⟨⟨x, rfl⟩, rfl⟩
  | _ => exact absurd h (by simp [Request.Moves])

theorem Legal.ofMoves {mv : Movement} {m : Minted} {db : Db} (h : t.Moves mv) (hok : mv.Ok db)
    (hu : m.Unused db) : Legal t db (mv.writes m) := by
  cases t with
  | deposit | transfer | withdraw => exact ⟨mv, m, h, hok, hu, rfl⟩
  | _ => exact absurd h (by simp [Request.Moves])

omit [Runtime] in
/-- What is locked makes the drawn ids unused. -/
theorem Booked.unused {mv : Movement} {m : Minted} {s : LedgerStore} (h : Booked i key mv m s) :
    m.Unused s.db where
  txn := (h.mid.frees (.transaction m.txn) (by simp [Movement.keys])).2
  debit := (h.mid.frees (.entry m.debit) (by simp [Movement.keys])).2
  credit := (h.mid.frees (.entry m.credit) (by simp [Movement.keys])).2
  distinct := h.distinct
  event := (h.mid.frees (.event m.event) (by simp [Movement.keys])).2

omit [Runtime] in
/-- **At the commit the movement is still possible**: nothing it rests on has moved. -/
theorem Booked.ok {mv : Movement} {m : Minted} {s : LedgerStore} (h : Booked i key mv m s)
    (hs : mv.Sound) : mv.Ok s.db := by
  refine hs s.db (fun w hw => (h.mid.wals w hw).2) (fun k hk => ?_) h.fits
  exact (h.mid.frees (.idempotencyKey k) (by simpa [Movement.keys] using hk)).2

/-- The commit of a booked movement. -/
theorem triple_commit {mv : Movement} {m : Minted} (hmv : t.Moves mv) (hs : mv.Sound) :
    Triple engine (contract db₀) i t (Booked i t.key mv m) (query .commit)
      (fun r s => match r with
        | .ok _ => Done i t mv m s
        | .error _ => Mid i t.key [] [] [] s) := by
  refine .perform Booked.stable ?_ ?_
  · intro r
    cases r with
    | ok u => exact Done.stable
    | error e => exact Mid.stable
  intro s inp r s' hi hb hx
  have hreads : readsOf i s' = readsOf i s := by
    rw [readsOf_exec hx]
    exact List.append_nil _
  have hmiss : ∀ o ∈ readsOf i s', Unbound t.key o := by
    rw [hreads]
    exact hb.mid.missed.reads
  have hok := hb.ok hs
  have hl : Legal t s.db (s.pending i) := by
    rw [hb.mid.pending]
    exact .ofMoves hmv hok hb.unused
  have hdrawn : ∀ e, .insertEntry e ∈ s.pending i → Drawn e s := by
    rw [hb.mid.pending]
    exact fun e he => (hb.mid.legs e he).1
  obtain ⟨hg, hpend, hout⟩ := guar_commit hi hx hl hdrawn (fun _ => hb.mid.missed.quiet)
  refine ⟨hg, ?_⟩
  rcases hout with ⟨e, rfl, hdb, hc⟩ | ⟨rfl, hdb, hc⟩
  · exact ⟨hpend, by simp, by simp, ⟨hmiss, by rw [Quiet, hc]; exact hb.mid.missed.quiet⟩, by simp⟩
  · rw [hb.mid.pending] at hdb hc
    have hp := Movement.posted hok.shaped hb.unused
    rw [← hdb] at hp
    obtain ⟨w, hw, hid, hu⟩ := hmv.path
    have hgrow : s.db.Grows s'.db := by rw [hdb]; exact .applyAll _ _
    obtain ⟨w', hw', hu', -⟩ := hgrow.wallets w.id w (hb.mid.wals w hw).2
    refine ⟨hpend, hmiss, ⟨⟨i, t, .commit, inp, s.db, s.aux, true, s.commits.length⟩,
      ?_, rfl, rfl, rfl⟩,
      by rw [hc, Store.record]; simp [Movement.writes], ?_, w', hid ▸ hw', hu'.trans hu⟩
    · rw [exec_trace hx]; exact List.mem_append_right _ (List.mem_singleton.mpr rfl)
    exact Table.get_eq_some.mpr ⟨by rw [hp.transactions]; simp, rfl⟩

/-! ## After the commit -/

omit [Runtime] in
/-- Reading a row back after the commit. -/
theorem Done.exec {mv : Movement} {m : Minted} {q : Stmt} {inp : Inp} {s s' : LedgerStore}
    {r : Except Exn q.Ans} (h : Done i t mv m s) (hq : q.isReplayRead = false) (hc : q ≠ .commit)
    (hw : ∀ inp o, q.write inp o = none) (hx : Isolation.exec engine i t q inp s = some (r, s')) :
    Done i t mv m s' := by
  have hreads : readsOf i s' = readsOf i s := by
    rw [readsOf_exec hx, hq]
    exact List.append_nil _
  obtain ⟨e, he, -, -, hdb, hcommits, hpend⟩ := exec_quiet hx hc
  have hnone : e.writes = [] := by
    rcases (run_within he).writes with h₀ | ⟨w, -, h₁, -⟩
    · exact h₀
    · rw [hw] at h₁; exact absurd h₁ (by simp)
  obtain ⟨x, hmem, hxi⟩ := h.seen
  refine ⟨?_, by rw [hreads]; exact h.reads, ⟨x, ?_, hxi⟩, by rw [hcommits]; exact h.commit,
    by rw [hdb]; exact h.txn, by rw [hdb]; exact h.wallet⟩
  · rcases hpend with hpend | hpend
    · rw [hpend, hnone, h.pending]; rfl
    · exact hpend
  · rw [exec_trace hx]; exact List.mem_append_left _ hmem

/-- A read-back that fails, though the row is there, has met a fault after the commit. -/
theorem Done.fails {mv : Movement} {m : Minted} {q : Stmt} {inp : Inp} {s s' : LedgerStore}
    {row : Option q.Ans} {e x : Exn} (h : Done i t mv m s) (hd : Done i t mv m s')
    (hx : Isolation.exec engine i t q inp s = some (.error x, s'))
    (hrun : run q inp i s.db s.aux = some (refreshes inp s.aux row)) (hrow : row.isSome = true) :
    Moved i t s' (.error e) := by
  have hfault : inp.fault ≠ none := by
    obtain ⟨e', he', hr, -⟩ := exec_outcome hx
    have hview : s.view engine i = s.db := by rw [Store.view, h.pending]; rfl
    rw [hview] at he'
    have he : some (refreshes inp s.aux row) = some e' := hrun.symm.trans he'
    cases he
    intro hf
    obtain ⟨a, ha⟩ := Option.isSome_iff_exists.mp hrow
    have hans : (refreshes inp s.aux row).ans = .ok a := by
      unfold refreshes
      rw [hf, ha]
    rw [hans] at hr
    exact absurd hr (by simp)
  obtain ⟨y, hy, hyi⟩ := h.seen
  obtain ⟨pre, post, htr⟩ := List.append_of_mem hy
  refine .raised (.inl hd.reads) (.inr ⟨⟨i, t, q, inp, s.db, s.aux, false, s.commits.length⟩,
    ⟨pre, post ++ [⟨i, t, q, inp, s.db, s.aux, false, s.commits.length⟩], y, ?_,
      hyi, by simp, rfl⟩, hfault⟩)
  rw [exec_trace hx, htr, List.append_assoc]
  rfl

/-- One row read back. -/
theorem triple_reread {mv : Movement} {m : Minted} {q : Stmt} {row : Db → Option q.Ans}
    {P : q.Ans → Prop} (hrun : ∀ inp db o, run q inp i db o = some (refreshes inp o (row db)))
    (hq : q.isReplayRead = false) (hc : q ≠ .commit) (hw : ∀ inp o, q.write inp o = none)
    (hrow : ∀ s, Done i t mv m s → ∃ a, row s.db = some a ∧ P a) :
    Triple engine (contract db₀) i t (Done i t mv m) (query q)
      (Ends (fun a s => P a ∧ Done i t mv m s) (fun s => ∀ e, Moved i t s (.error e))) := by
  refine .perform Done.stable (Ends.stable (fun _ => .and (.const _) Done.stable) ?_) ?_
  · exact fun s s' h hr e => Moved.stable s s' (h e) hr
  intro s inp r s' hi hd hx
  have hd' := hd.exec hq hc hw hx
  obtain ⟨a, ha, hp⟩ := hrow s hd
  refine ⟨guar_quiet hi hx hc, ?_⟩
  cases r with
  | error x => exact fun e => hd.fails hd' hx (hrun inp s.db s.aux) (by rw [ha]; rfl)
  | ok b =>
      obtain ⟨e, he, hr, -, -⟩ := exec_outcome hx
      have hview : s.view engine i = s.db := by rw [Store.view, hd.pending]; rfl
      rw [hview] at he
      have he' : some (refreshes inp s.aux (row s.db)) = some e :=
        (hrun inp s.db s.aux).symm.trans he
      cases he'
      have hb := (refreshes_ok hr.symm).1
      rw [ha] at hb
      cases hb
      exact ⟨hp, hd'⟩

/-- `refresh` of the wallet and of the transaction, and the reply. -/
theorem triple_readBack {mv : Movement} {m : Minted} (hmv : t.Moves mv) :
    Triple engine (contract db₀) i t (Done i t mv m)
      (do
        let wallet : Wallet ← query (.refreshWallet t.path)
        let txn : Transaction ← query (.refreshTransaction (mv.txn m).id)
        pure (txn, some wallet))
      (fun r s => Moved i t s (r.map Reply.ofMoved)) := by
  have hraise : ∀ e : Exn, Triple engine (contract db₀) i t (fun s => ∀ e, Moved i t s (.error e))
      (.raise e) (fun (r : Except Exn (Transaction × Option Wallet)) s =>
        Moved i t s (r.map Reply.ofMoved)) := fun e =>
    .raise (fun s s' h hr e => Moved.stable s s' (h e) hr) (fun _ _ h => h e)
  refine .bind (contract_preorder db₀) (triple_reread (q := .refreshWallet t.path)
    (fun _ _ _ => rfl)
    rfl (by simp) (fun _ _ => rfl) (P := fun w => w.id = t.path ∧ w.userId = t.requester) ?_)
      (fun w => ?_) hraise
  · intro s hd
    obtain ⟨w, hw, hu⟩ := hd.wallet
    exact ⟨w, hw, Table.key_of_get hw, hu⟩
  · rintro s hi ⟨⟨hid, hu⟩, hd⟩
    refine Triple.bind (contract_preorder db₀) (triple_reread
      (q := .refreshTransaction (mv.txn m).id) (fun _ _ _ => rfl) rfl (by simp) (fun _ _ => rfl)
      (P := fun txn => txn = mv.txn m) ?_) (fun txn => ?_) hraise s hi hd
    · exact fun s hd => ⟨_, hd.txn, rfl⟩
    · rintro s hi ⟨rfl, hd⟩
      refine Triple.ret Done.stable (fun s _ hd => ?_) s hi hd
      exact .own hd.reads hmv hd.commit hid hu

/-! ## The operations -/

/-- The end of a money operation, before the session is closed. -/
def MovedBy (i : Sid) (t : Request) (r : Except Exn (Transaction × Option Wallet))
    (s : LedgerStore) : Prop := Moved i t s (r.map Reply.ofMoved)

theorem MovedBy.lenient : Lenient i t.key (MovedBy i t) := fun _ _ h => .raised
    (.inl h.reads) (.inl h.quiet)

/-- `deposit` is its checks, then `book`, then the commit. -/
theorem deposit_eq (w u : Uuid) (data : DepositRequest) :
    LedgerService.deposit w u data = (do
      let some wallet ← WalletRepository.getWithLock w | raise (.walletNotFound w)
      raiseIf (wallet.userId ≠ u) (.walletAccessDenied w)
      raiseIf (wallet.currency ≠ upper data.currency)
        (.currencyMismatch ("Wallet currency " ++ wallet.currency ++ " != " ++ upper data.currency))
      book ⟨.deposit, wallet.currency, none, data.amount, .funding, .wallet wallet⟩ (fun txn => do
        query .commit
        let wallet : Wallet ← query (.refreshWallet wallet.id)
        let txn : Transaction ← query (.refreshTransaction txn.id)
        pure (txn, some wallet))) := rfl

omit [Runtime] in
/-- A deposit is possible wherever its wallet is current. -/
theorem sound_deposit {w : Wallet} {amount : Int} (h : 0 < amount) :
    (⟨.deposit, w.currency, none, amount, .funding, .wallet w⟩ : Movement).Sound := by
  intro db hw hk hf
  refine ⟨h, hf, ⟨rfl, w, rfl⟩, by simp, ?_, hk⟩
  intro w' he
  cases he
  exact ⟨hw w (by simp [Movement.wallets, Side.wallets]), rfl⟩

theorem triple_deposit {w u : Uuid} {data : DepositRequest} :
    Triple engine (contract db₀) i (.deposit w u data) (Mid i none [] [] [])
      (LedgerService.deposit w u data) (MovedBy i (.deposit w u data)) := by
  rw [deposit_eq]
  have hQ : Lenient i none (MovedBy i (.deposit w u data)) :=
    MovedBy.lenient (t := .deposit w u data)
  refine triple_next hQ triple_getWithLock (fun r => ?_)
  rintro s hi ⟨hid, hm⟩
  cases r with
  | none => exact triple_raise hQ s hi hm
  | some wallet =>
      have hid : wallet.id = w := hid wallet rfl
      refine triple_raiseIf hQ (fun hu => triple_raiseIf hQ (fun hc => ?_)) s hi hm
      have hmv : (Request.deposit w u data).Moves
          ⟨.deposit, wallet.currency, none, data.amount, .funding, .wallet wallet⟩ :=
        ⟨wallet, hid, not_not.mp hu, not_not.mp hc, rfl⟩
      refine triple_book hQ hmv.shaped (fun m => ?_)
      refine .bind (contract_preorder db₀) (triple_commit hmv (sound_deposit data.amount_pos))
        (fun _ => ?_) (fun e => triple_raise hQ)
      rw [hid]
      exact triple_readBack hmv

/-- The commit with the conflict handler around it. -/
theorem triple_commitKeyed {mv : Movement} {m : Minted} (hmv : t.Moves mv) (hs : mv.Sound) :
    Triple engine (contract db₀) i t (Booked i t.key mv m)
      (LedgerService.commitKeyed (mv.txn m) t.key t.path) (MovedBy i t) := by
  unfold LedgerService.commitKeyed
  rw [attempt_bind]
  refine .handle (contract_preorder db₀) (triple_commit hmv hs) (fun r => ?_)
  have hraise : ∀ e, Triple engine (contract db₀) i t (Mid i t.key [] [] []) (.raise e)
      (MovedBy i t) := fun e => triple_raise MovedBy.lenient
  have hrollback : Triple engine (contract db₀) i t (Mid i t.key [] [] []) (query .rollback)
      (Ends (fun _ => Mid i t.key [] [] []) (Missed i t.key)) := by
    refine Mid.triple trivial (by simp) (fun _ => Mid.stable) ?_
    intro s s' inp e a hm he ha hdb _ hab
    cases he
    exact hab rfl
  cases r with
  | ok u => exact triple_readBack hmv
  | error e =>
      cases e with
      | db e =>
          cases e with
          | integrity =>
              -- somebody else has bound the key: the replay decides
              show Triple _ _ _ _ _ (query .rollback >>= _) _
              refine triple_next MovedBy.lenient hrollback (fun _ => ?_)
              refine .bind (contract_preorder db₀) triple_replay (fun r => ?_)
                (fun e => .raise Moved.stable (fun _ _ h => h))
              cases r with
              | none => exact hraise _
              | some r => exact .ret Moved.stable (fun _ _ h => h)
          | _ => exact hraise _
      | _ => exact hraise _

/-- `withdraw` is the replay, its checks, then `book`, then the commit. -/
theorem withdraw_eq (w u : Uuid) (data : WithdrawalRequest) (key : Option String) :
    LedgerService.withdraw w u data key = (do
      match ← LedgerService.replay key w with
      | some r => pure r
      | none => do
          let some wallet ← WalletRepository.getWithLock w | raise (.walletNotFound w)
          raiseIf (wallet.userId ≠ u) (.walletAccessDenied w)
          raiseIf (wallet.currency ≠ upper data.currency)
            (.currencyMismatch
              ("Wallet currency " ++ wallet.currency ++ " != " ++ upper data.currency))
          raiseIf (wallet.availableBalance < data.amount) (.insufficientFunds w)
          book ⟨.withdrawal, wallet.currency, key, data.amount, .wallet wallet, .funding⟩
            (fun txn => LedgerService.commitKeyed txn key w)) := rfl

omit [Runtime] in
/-- A withdrawal is possible wherever its wallet is current. -/
theorem sound_withdraw {w : Wallet} {amount : Int} (key : Option String) (h : 0 < amount)
    (hb : amount ≤ w.availableBalance) :
    (⟨.withdrawal, w.currency, key, amount, .wallet w, .funding⟩ : Movement).Sound := by
  intro db hw hk hf
  refine ⟨h, hf, ⟨⟨w, rfl⟩, rfl⟩, ?_, by simp, hk⟩
  intro w' he
  cases he
  exact ⟨hw w (by simp [Movement.wallets, Side.wallets]), rfl, hb⟩

theorem triple_withdraw {w u : Uuid} {data : WithdrawalRequest} {key : Option String} :
    Triple engine (contract db₀) i (.withdraw w u data key) (Mid i key [] [] [])
      (LedgerService.withdraw w u data key) (MovedBy i (.withdraw w u data key)) := by
  rw [withdraw_eq]
  have hQ : Lenient i key (MovedBy i (.withdraw w u data key)) :=
    MovedBy.lenient (t := .withdraw w u data key)
  refine .bind (contract_preorder db₀) triple_replay (fun r => ?_)
    (fun e => .raise Moved.stable (fun _ _ h => h))
  cases r with
  | some r => exact .ret Moved.stable (fun _ _ h => h)
  | none =>
      refine triple_next hQ triple_getWithLock (fun r => ?_)
      rintro s hi ⟨hid, hm⟩
      cases r with
      | none => exact triple_raise hQ s hi hm
      | some wallet =>
          have hid : wallet.id = w := hid wallet rfl
          refine triple_raiseIf hQ (fun hu => triple_raiseIf hQ (fun hc => ?_)) s hi hm
          refine triple_raiseIf hQ (fun hb => ?_)
          have hmv : (Request.withdraw w u data key).Moves
              ⟨.withdrawal, wallet.currency, key, data.amount, .wallet wallet, .funding⟩ :=
            ⟨wallet, hid, not_not.mp hu, not_not.mp hc, rfl⟩
          have hsound := sound_withdraw key data.amount_pos (not_lt.mp hb)
          exact triple_book hQ hmv.shaped (fun m => triple_commitKeyed hmv hsound)

/-- `transfer` is the replay, its checks, then `book`, then the commit. -/
theorem transfer_eq (w u : Uuid) (data : TransferRequest) (key : Option String) :
    LedgerService.transfer w u data key = (do
      raiseIf (w = data.recipientWalletId) (.sameWalletTransfer w)
      match ← LedgerService.replay key w with
      | some r => pure r
      | none => do
          let locked ← WalletRepository.getForUpdateOrdered [w, data.recipientWalletId]
          let some sender := (locked.lookup w).join | raise (.walletNotFound w)
          raiseIf (sender.userId ≠ u) (.walletAccessDenied w)
          let some recipient := (locked.lookup data.recipientWalletId).join
            | raise (.recipientNotFound data.recipientWalletId)
          raiseIf (sender.currency ≠ upper data.currency)
            (.currencyMismatch
              ("Sender wallet currency " ++ sender.currency ++ " != " ++ upper data.currency))
          raiseIf (recipient.currency ≠ sender.currency)
            (.currencyMismatch
              ("Recipient wallet currency " ++ recipient.currency ++ " != " ++ sender.currency))
          raiseIf (sender.availableBalance < data.amount) (.insufficientFunds w)
          book ⟨.transfer, sender.currency, key, data.amount, .wallet sender, .wallet recipient⟩
            (fun txn => LedgerService.commitKeyed txn key w)) := rfl

omit [Runtime] in
/-- A transfer is possible wherever its two wallets are current. -/
theorem sound_transfer {s r : Wallet} {amount : Int} (key : Option String) (h : 0 < amount)
    (hb : amount ≤ s.availableBalance) (hc : r.currency = s.currency) (hne : s.id ≠ r.id) :
    (⟨.transfer, s.currency, key, amount, .wallet s, .wallet r⟩ : Movement).Sound := by
  intro db hw hk hf
  refine ⟨h, hf, ⟨s, r, rfl, rfl, hne⟩, ?_, ?_, hk⟩
  · intro w' he
    cases he
    exact ⟨hw s (by simp [Movement.wallets, Side.wallets]), rfl, hb⟩
  · intro w' he
    cases he
    exact ⟨hw r (by simp [Movement.wallets, Side.wallets]), hc⟩

theorem triple_transfer {w u : Uuid} {data : TransferRequest} {key : Option String} :
    Triple engine (contract db₀) i (.transfer w u data key) (Mid i key [] [] [])
      (LedgerService.transfer w u data key) (MovedBy i (.transfer w u data key)) := by
  rw [transfer_eq]
  have hQ : Lenient i key (MovedBy i (.transfer w u data key)) :=
    MovedBy.lenient (t := .transfer w u data key)
  refine triple_raiseIf hQ (fun hne => ?_)
  refine .bind (contract_preorder db₀) triple_replay (fun r => ?_)
    (fun e => .raise Moved.stable (fun _ _ h => h))
  cases r with
  | some r => exact .ret Moved.stable (fun _ _ h => h)
  | none =>
      refine triple_next hQ triple_lockEach (fun locked => ?_)
      rintro s hi ⟨wals, ⟨-, hlocked⟩, hm⟩
      cases hsender : (locked.lookup w).join with
      | none => exact triple_raise hQ s hi hm
      | some sender =>
          obtain ⟨hsid, hsmem⟩ := hlocked _ (mem_of_lookup hsender) sender rfl
          refine triple_raiseIf hQ (fun hu => ?_) s hi hm
          cases hrecipient : (locked.lookup data.recipientWalletId).join with
          | none => exact triple_raise hQ
          | some recipient =>
              obtain ⟨hrid, hrmem⟩ := hlocked _ (mem_of_lookup hrecipient) recipient rfl
              refine triple_raiseIf hQ (fun hc => triple_raiseIf hQ (fun hrc => ?_))
              refine triple_raiseIf hQ (fun hb => ?_)
              have hmv : (Request.transfer w u data key).Moves ⟨.transfer, sender.currency, key,
                  data.amount, .wallet sender, .wallet recipient⟩ :=
                ⟨sender, recipient, hsid, not_not.mp hu, not_not.mp hc, hrid, not_not.mp hrc, hne,
                  rfl⟩
              have hids : sender.id ≠ recipient.id := by rw [hsid, hrid]; exact hne
              have hsound := sound_transfer key data.amount_pos (not_lt.mp hb)
                (not_not.mp hrc) hids
              refine (triple_book hQ hmv.shaped (fun m => triple_commitKeyed hmv hsound)).conseq
                (fun s _ hm => hm.weaken ?_ (fun _ h => h)) (fun _ _ h => h)
              intro x hx
              rcases List.mem_pair.mp hx with rfl | rfl
              · exact hsmem
              · exact hrmem

end WalletLedger
