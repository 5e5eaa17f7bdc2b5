import WalletLedger.Proof.Vocabulary

/-!
# The contract of the books

What every session promises about the committed state: it changes by legal
commits only. The invariant `Settled` is that the commits so far form a legal
history of the current database, that every state a statement has met lies on
that history, and that a money request commits at most once.

The numbers of the legs are part of it: a leg draws its number while its wallet is
locked, so on one wallet the numbers follow the commits, whatever they do across
wallets.

The postconditions of the money operations say how they ended in terms of what
they read. Only two reads are not protected by locks, both in `replay`; they are
what `readsOf` collects.
-/

namespace WalletLedger

open Isolation Prog

/-- A statement in the history, with the state it met. -/
abbrev LedgerObs := Obs Db Outside Stmt Inp Request

/-! ## The reads of a replay -/

/-- The lookup of a key, and the read of the path wallet that follows a hit. -/
def Stmt.isReplayRead : Stmt → Bool
  | .selectTransactionByKey _ | .selectWallet _ => true
  | _ => false

/-- The replay reads a session has made. -/
def readsOf (i : Sid) (s : LedgerStore) : List LedgerObs :=
  s.trace.filter (fun o => decide (o.sid = i) && o.stmt.isReplayRead)

/-- A lookup that was answered and found the key unbound. -/
def Unbound (key : Option String) (o : LedgerObs) : Prop :=
  ∃ k, key = some k ∧ o.stmt = .selectTransactionByKey k ∧ o.inp.fault = none
    ∧ o.db.transactionByKey k = none

theorem mem_readsOf {i : Sid} {s : LedgerStore} {o : LedgerObs} :
    o ∈ readsOf i s ↔ o ∈ s.trace ∧ o.sid = i ∧ o.stmt.isReplayRead = true := by
  simp [readsOf]

/-- Others do not add to a session's reads. -/
theorem readsOf_frame {i : Sid} {s s' : LedgerStore} (h : Frame engine i s s') :
    readsOf i s' = readsOf i s := by
  obtain ⟨l, hl, hn⟩ := h.trace
  have hnil : l.filter (fun o => decide (o.sid = i) && o.stmt.isReplayRead) = [] := by
    rw [List.filter_eq_nil_iff]
    intro o ho
    simp [hn o ho]
  rw [readsOf, hl, List.filter_append, hnil, List.append_nil, readsOf]

theorem readsOf_exec {i : Sid} {t : Request} {q : Stmt} {inp : Inp} {s s' : LedgerStore}
    {r : Except Exn q.Ans} (h : exec engine i t q inp s = some (r, s')) :
    readsOf i s' = readsOf i s
      ++ if q.isReplayRead then [⟨i, t, q, inp, s.db, s.aux, r.isOk,
        s.commits.length⟩] else [] := by
  unfold readsOf
  rw [exec_trace h, List.filter_append]
  cases hq : q.isReplayRead <;> simp [hq]

theorem readsOf_fresh {i : Sid} {s : LedgerStore} (h : Fresh i s) : readsOf i s = [] := by
  rw [readsOf, List.filter_eq_nil_iff]
  intro o ho
  simp [h.trace o ho]

/-! ## After the commit -/

/-- A statement session `i` has executed after a commit of its own. -/
def AfterCommit (i : Sid) (s : LedgerStore) (o : LedgerObs) : Prop :=
  ∃ pre post x, s.trace = pre ++ x :: post ∧ (x.sid = i ∧ x.stmt = .commit ∧ x.ok = true)
    ∧ o ∈ post ∧ o.sid = i

theorem AfterCommit.mono {i : Sid} {s s' : LedgerStore} {o : LedgerObs} (h : AfterCommit i s o)
    {l : List LedgerObs} (ht : s'.trace = s.trace ++ l) : AfterCommit i s' o := by
  obtain ⟨pre, post, x, he, hx, ho, hi⟩ := h
  refine ⟨pre, post ++ l, x, ?_, hx, List.mem_append_left _ ho, hi⟩
  rw [ht, he, List.append_assoc, List.cons_append]

/-- Session `i` has committed nothing. -/
def Quiet (i : Sid) (s : LedgerStore) : Prop := ∀ c ∈ s.commits, c.sid ≠ i

theorem Quiet.mono {i : Sid} {s s' : LedgerStore} (h : Quiet i s) {l : List (Commit Write Request)}
    (hc : s'.commits = s.commits ++ l) (hn : ∀ c ∈ l, c.sid ≠ i) : Quiet i s' := by
  intro c hmem
  rw [hc, List.mem_append] at hmem
  rcases hmem with hmem | hmem
  · exact h c hmem
  · exact hn c hmem

/-! ## How a money operation ends -/

/-- The idempotency key of a request. -/
def Request.key : Request → Option String
  | .transfer _ _ _ key | .withdraw _ _ _ key => key
  | _ => none

/-- The wallet in the path of a request. -/
def Request.path : Request → Uuid
  | .deposit w _ _ | .transfer w _ _ _ | .withdraw w _ _ _ => w
  | _ => 0

/-- Who makes the request. -/
def Request.requester : Request → Uuid
  | .deposit _ u _ | .transfer _ u _ _ | .withdraw _ u _ _ => u
  | _ => 0

section

variable [Runtime]

/-- The three ways a money operation ends. -/
inductive Moved (i : Sid) (t : Request) (s : LedgerStore) : Except Exn Reply → Prop where
  /-- An exception: every lookup missed, or a read of the replay failed. Nothing is
  committed, unless it is the read-back that failed. -/
  | raised {e : Exn}
      (reads : (∀ o ∈ readsOf i s, Unbound t.key o) ∨ ∃ o ∈ readsOf i s, o.inp.fault ≠ none)
      (quiet : Quiet i s ∨ ∃ o, AfterCommit i s o ∧ o.inp.fault ≠ none) :
      Moved i t s (.error e)
  /-- Its own movement, committed. -/
  | own {mv : Movement} {m : Minted} {w : Wallet} (reads : ∀ o ∈ readsOf i s, Unbound t.key o)
      (moves : t.Moves mv) (commit : ⟨i, t, mv.writes m⟩ ∈ s.commits)
      (id : w.id = t.path) (owner : w.userId = t.requester) :
      Moved i t s (.ok (.moved (mv.txn m) (some w)))
  /-- The transaction a lookup found, and whatever the path wallet's id leads to. -/
  | replayed {k : String} {txn : Transaction} {pre : List LedgerObs} {o o' : LedgerObs}
      (key : t.key = some k) (reads : readsOf i s = pre ++ [o, o'])
      (misses : ∀ o ∈ pre, Unbound t.key o)
      (hit : o.stmt = .selectTransactionByKey k ∧ o.inp.fault = none
        ∧ o.db.transactionByKey k = some txn)
      (read : o'.stmt = .selectWallet t.path ∧ o'.inp.fault = none) (quiet : Quiet i s) :
      Moved i t s (.ok (.moved txn (o'.db.wallets.get t.path)))

/-- Neither other sessions' commits nor their reads change how an operation ended. -/
theorem Moved.mono {i : Sid} {t : Request} {s s' : LedgerStore} {r : Except Exn Reply}
    (h : Moved i t s r) (hr : readsOf i s' = readsOf i s)
    (hc : ∃ l, s'.commits = s.commits ++ l ∧ ∀ c ∈ l, c.sid ≠ i)
    (ht : ∃ l, s'.trace = s.trace ++ l) : Moved i t s' r := by
  obtain ⟨l, hc, hn⟩ := hc
  obtain ⟨l', ht⟩ := ht
  cases h with
  | raised reads quiet =>
      refine .raised (by rw [hr]; exact reads) ?_
      rcases quiet with hq | ⟨o, ho, hf⟩
      · exact .inl (hq.mono hc hn)
      · exact .inr ⟨o, ho.mono ht, hf⟩
  | own reads moves commit id owner =>
      exact .own (by rw [hr]; exact reads) moves (by rw [hc]; exact List.mem_append_left _ commit)
        id owner
  | replayed key reads misses hit read quiet =>
      exact .replayed key (by rw [hr]; exact reads) misses hit read (quiet.mono hc hn)

/-- What holds when a session has returned or raised. -/
def Ended (i : Sid) (t : Request) (r : Except Exn Reply) (s : LedgerStore) : Prop :=
  match t with
  | .register _ | .createWallet _ _ | .getBalance _ _ | .listTransactions _ _ _ _
  | .reconcile => True
  | .publish _ _ _ | .handleEvent _ | .analyticsConsumer => ∀ w ∈ s.pending i, w.area = t.area
  | t => Moved i t s r

/-! ## The contract -/

/-- A leg has a number, the highest so far on its wallet. -/
structure Drawn (e : LedgerEntry) (s : LedgerStore) : Prop where
  seq : e.seq < s.aux.seq
  latest : ∀ id, e.walletId = some id → ∀ c ∈ s.commits, ∀ e', .insertEntry e' ∈ c.writes →
    e'.walletId = some id → e'.seq < e.seq

/-- The invariant of the books. -/
structure Settled (db₀ : Db) (s : LedgerStore) : Prop where
  /-- The commits are a legal history of the database. -/
  history : Chain db₀ s.commits s.db
  /-- Every state a statement has met has evolved into the current one. -/
  seen : ∀ o ∈ s.trace, Evolves o.db s.db
  /-- A money request commits once. -/
  once : s.commits.Pairwise (fun a b => a.sid = b.sid → b.tag.movesMoney = false)
  /-- The numbers of committed legs have been handed out. -/
  drawn : ∀ c ∈ s.commits, ∀ e, .insertEntry e ∈ c.writes → e.seq < s.aux.seq
  /-- On one wallet they follow the commits. -/
  sorted : s.commits.Pairwise (fun a b => ∀ e e' id, .insertEntry e ∈ a.writes →
    .insertEntry e' ∈ b.writes → e.walletId = some id → e'.walletId = some id → e.seq < e'.seq)

/-- The contract of the books, from the database `db₀` on. -/
def contract (db₀ : Db) : Contract Db Write Res Outside Stmt Inp Exn Request Reply where
  rely _ s s' := Evolves s.db s'.db ∧ s.aux.seq ≤ s'.aux.seq
  inv := Settled db₀
  post := Ended

theorem contract_preorder (db₀ : Db) : (contract db₀).Preorder where
  refl := fun _ s => ⟨.refl s.db, Nat.le_refl _⟩
  trans := fun h₁ h₂ => ⟨h₁.1.trans h₂.1, Nat.le_trans h₁.2 h₂.2⟩

variable {db₀ : Db} {i : Sid} {t : Request} {q : Stmt} {inp : Inp} {s s' : LedgerStore}
  {r : Except Exn q.Ans}

/-- The promise is kept by anything that commits nothing. -/
theorem Settled.quiet (h : Settled db₀ s) (hdb : s'.db = s.db) (hc : s'.commits = s.commits)
    (hseq : s.aux.seq ≤ s'.aux.seq) (ht : ∀ o ∈ s'.trace, o ∈ s.trace ∨ o.db = s.db) :
    Settled db₀ s' where
  history := by rw [hdb, hc]; exact h.history
  seen := by
    intro o ho
    rw [hdb]
    rcases ht o ho with ho | ho
    · exact h.seen o ho
    · rw [ho]; exact .refl _
  once := by rw [hc]; exact h.once
  drawn := by
    rw [hc]
    exact fun c hmem e he => Nat.lt_of_lt_of_le (h.drawn c hmem e he) hseq
  sorted := by rw [hc]; exact h.sorted

/-- **A commit keeps the promise if its write set is legal now.** -/
theorem Settled.commit (h : Settled db₀ s) {ws : List Write} (hl : Legal t s.db ws)
    (hdb : s'.db = s.db.applyAll ws) (hc : s'.commits = Store.record s.commits i t ws)
    (haux : s'.aux = s.aux) (hdrawn : ∀ e, .insertEntry e ∈ ws → Drawn e s)
    (ht : ∀ o ∈ s'.trace, o ∈ s.trace ∨ o.db = s.db)
    (hone : t.movesMoney = true → ∀ c ∈ s.commits, c.sid ≠ i) :
    Settled db₀ s' ∧ Evolves s.db s'.db := by
  have hchain : Chain s.db [⟨i, t, ws⟩] s'.db := by rw [hdb]; exact Chain.single hl
  have hev : Evolves s.db s'.db := ⟨_, hchain⟩
  refine ⟨⟨?_, ?_, ?_, ?_, ?_⟩, hev⟩
  · rw [hc]
    unfold Store.record
    split
    · rename_i he
      rw [hdb, List.isEmpty_iff.mp he]
      exact h.history
    · exact h.history.append hchain
  · intro o ho
    rcases ht o ho with ho | ho
    · exact (h.seen o ho).trans hev
    · rw [ho]; exact hev
  · rw [hc]
    unfold Store.record
    split
    · exact h.once
    · refine List.pairwise_append.mpr ⟨h.once, by simp, ?_⟩
      intro a ha b hb hab
      rw [List.mem_singleton] at hb
      subst hb
      show t.movesMoney = false
      cases hm : t.movesMoney with
      | false => rfl
      | true => exact absurd hab (hone hm a ha)
  · rw [haux]
    obtain ⟨l, hl, -, hnew⟩ := record_eq s.commits i t ws
    intro c hmem e he
    rw [hc, hl, List.mem_append] at hmem
    rcases hmem with hmem | hmem
    · exact h.drawn c hmem e he
    · rw [hnew c hmem] at he
      exact (hdrawn e he).seq
  · rw [hc]
    unfold Store.record
    split
    · exact h.sorted
    · refine List.pairwise_append.mpr ⟨h.sorted, by simp, ?_⟩
      intro a ha b hb e e' id he he' hid hid'
      rw [List.mem_singleton] at hb
      subst hb
      exact (hdrawn e' he').latest id hid' a ha e he hid

omit [Runtime] in
/-- What `exec` adds to the history was seen in the state it ran in. -/
theorem exec_seen (hx : exec engine i t q inp s = some (r, s')) :
    ∀ o ∈ s'.trace, o ∈ s.trace ∨ o.db = s.db := by
  intro o ho
  rw [exec_trace hx, List.mem_append, List.mem_singleton] at ho
  rcases ho with ho | rfl
  · exact .inl ho
  · exact .inr rfl

/-- A statement that commits nothing keeps the contract. -/
theorem guar_same (hi : Settled db₀ s) (hx : exec engine i t q inp s = some (r, s'))
    (hdb : s'.db = s.db) (hc : s'.commits = s.commits) : Guar engine (contract db₀) i s s' := by
  have hseq : s.aux.seq ≤ s'.aux.seq := by
    obtain ⟨e, he, -, haux, -⟩ := exec_outcome hx
    rw [haux]
    exact (run_within he).seq
  refine ⟨fun j _ => ⟨?_, hseq⟩, hi.quiet hdb hc hseq (exec_seen hx)⟩
  rw [hdb]
  exact .refl _

/-- So does any statement other than `commit`. -/
theorem guar_quiet (hi : Settled db₀ s) (hx : exec engine i t q inp s = some (r, s'))
    (hq : q ≠ .commit) : Guar engine (contract db₀) i s s' := by
  obtain ⟨_, -, -, -, hdb, hc, -⟩ := exec_quiet hx hq
  exact guar_same hi hx hdb hc

/-- **A commit keeps the contract if what the session has buffered is legal.** Either it
fails and nothing has happened, or the write set is the newest commit. -/
theorem guar_commit {r : Except Exn Unit} (hi : Settled db₀ s)
    (hx : exec engine i t .commit inp s = some (r, s')) (hl : Legal t s.db (s.pending i))
    (hdrawn : ∀ e, .insertEntry e ∈ s.pending i → Drawn e s)
    (hone : t.movesMoney = true → ∀ c ∈ s.commits, c.sid ≠ i) :
    Guar engine (contract db₀) i s s' ∧ s'.pending i = []
      ∧ ((∃ e, r = .error e ∧ s'.db = s.db ∧ s'.commits = s.commits)
        ∨ (r = .ok () ∧ s'.db = s.db.applyAll (s.pending i)
          ∧ s'.commits = Store.record s.commits i t (s.pending i))) := by
  obtain ⟨haux, hpend, ⟨e, -, hr, hdb, hc⟩ | ⟨-, hr, hdb, hc⟩⟩ := exec_commit hx
  · exact ⟨guar_same hi hx hdb hc, hpend, .inl ⟨_, hr, hdb, hc⟩⟩
  · obtain ⟨hs, hev⟩ := hi.commit hl hdb hc haux hdrawn (exec_seen hx) hone
    exact ⟨⟨fun _ _ => ⟨hev, by rw [haux]⟩, hs⟩, hpend, .inr ⟨hr, hdb, hc⟩⟩

end

end WalletLedger
