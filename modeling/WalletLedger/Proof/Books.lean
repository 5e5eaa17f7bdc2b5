import WalletLedger.Proof.Operations

/-!
# Every run is a legal history

The remaining programs against the contract of the books, and with them its
soundness: in every reachable world the commits form a legal history of the
database, and every session that has ended did so in one of the ways its
postcondition allows.
-/

namespace WalletLedger

open Isolation Prog

variable [Runtime] {db₀ : Db} {i : Sid} {t : Request} {key : Option String} {ws : List Write}
  {wals : List Wallet} {frees : List Res} {β : Type}

/-! ## Users and wallets -/

/-- A statement that only reads leaves the transaction as it is. -/
theorem triple_plain {q : Stmt} (hq : q.Inside wals) (hc : q ≠ .commit)
    (h : ∀ inp db o e a, run q inp i db o = some e → e.ans = .ok a →
      e.ctl = .stay ∧ e.writes = []) :
    Triple engine (contract db₀) i t (Mid i key ws wals frees) (query q)
      (Ends (fun _ => Mid i key ws wals frees) (Missed i key)) := by
  refine Mid.triple hq hc (fun _ => Mid.stable) ?_
  intro s s' inp e a hm he ha hdb hs _
  obtain ⟨hctl, hw⟩ := h inp _ _ e a he ha
  have hm' := (hs hctl).1
  rwa [hw, List.append_nil] at hm'

omit [Runtime] in
theorem reads_plain {q : Stmt} {f : Db → q.Ans}
    (hrun : ∀ inp db o, run q inp i db o = some (reads inp o (f db))) :
    ∀ inp db o e a, run q inp i db o = some e → e.ans = .ok a → e.ctl = .stay ∧ e.writes = [] := by
  intro inp db o e a he ha
  rw [hrun] at he
  cases he
  rw [(reads_ok ha).2.2]
  exact ⟨rfl, rfl⟩

omit [Runtime] in
theorem refreshes_plain {q : Stmt} {f : Db → Option q.Ans}
    (hrun : ∀ inp db o, run q inp i db o = some (refreshes inp o (f db))) :
    ∀ inp db o e a, run q inp i db o = some e → e.ans = .ok a → e.ctl = .stay ∧ e.writes = [] := by
  intro inp db o e a he ha
  rw [hrun] at he
  cases he
  rw [(refreshes_ok ha).2]
  exact ⟨rfl, rfl⟩

/-- Nothing is promised of how these operations end. -/
abbrev Any : Except Exn β → LedgerStore → Prop := fun _ _ => True

omit [Runtime] in
theorem Any.lenient : Lenient i key (Any (β := β)) := fun _ _ _ => trivial

/-- Statements other than `commit` are always allowed. -/
theorem triple_any {p : Tx β} (hp : p.Uses (· ≠ .commit)) :
    Triple engine (contract db₀) i t (fun _ => True) p Any :=
  .uses hp (.const True) (fun _ hq _ _ _ _ hi _ hx => ⟨guar_quiet hi hx hq, trivial⟩)

/-- The one commit of an operation that moves no money, and its conflict handler. -/
theorem triple_commitOnce {f : Except Exn Unit → Tx β} (hmoney : t.movesMoney = false)
    (hl : ∀ s, Mid i key ws wals frees s → Legal t s.db ws)
    (hf : ∀ r, (f r).Uses (· ≠ .commit)) :
    Triple engine (contract db₀) i t (Mid i key ws wals frees) ((query .commit).attempt >>= f)
      Any := by
  rw [attempt_bind]
  refine .handle (contract_preorder db₀) (Q := fun _ _ => True) ?_ (fun r => triple_any (hf r))
  refine .perform Mid.stable (fun _ => .const True) ?_
  intro s inp r s' hi hm hx
  have hl' : Legal t s.db (s.pending i) := by rw [hm.pending]; exact hl s hm
  have hdrawn : ∀ e, .insertEntry e ∈ s.pending i → Drawn e s := by
    rw [hm.pending]
    exact fun e he => (hm.legs e he).1
  exact ⟨(guar_commit hi hx hl' hdrawn (by rw [hmoney]; simp)).1, trivial⟩

omit [Runtime] in
/-- A conflict handler that rolls back and raises, after a commit that read the row back. -/
theorem uses_onConflict {q : Stmt} {e : Exn} (hq : q ≠ .commit) {f : Except Exn Unit → Tx q.Ans}
    (hok : f (.ok ()) = query q)
    (hconf : f (.error (.db .integrity)) = (do query .rollback; raise e))
    (herr : ∀ x, x ≠ .db .integrity → f (.error x) = raise x) (r : Except Exn Unit) :
    (f r).Uses (· ≠ .commit) := by
  cases r with
  | ok _ => rw [hok]; exact .perform hq
  | error x =>
      by_cases hx : x = .db .integrity
      · rw [hx, hconf]; exact .bind (.perform (by simp)) (fun _ => trivial)
      · rw [herr x hx]; trivial

/-- The user is inserted and read back. -/
theorem triple_createUser {name email hash : String} :
    Triple engine (contract db₀) i t (Mid i none [] [] []) (UserRepository.create name email hash)
      (Ends (fun _ s => ∃ u : User, (u.name = name ∧ u.email = email)
        ∧ Mid i none [.insertUser u] [] [.user u.id, .email u.email] s) (Missed i none)) := by
  refine triple_next Ends.lenient (P := fun u s => (u.name = name ∧ u.email = email)
    ∧ Mid i none [.insertUser u] [] [.user u.id, .email u.email] s) ?_ (fun u => ?_)
  · refine Mid.inserts (fun _ _ _ => rfl) ?_ trivial (by simp)
      (fun _ => .and (.const _) Mid.stable) ?_
    · intro inp db o htaken r hr
      simp only [Bool.or_eq_false_iff, Option.isSome_eq_false_iff, Option.isNone_iff_eq_none]
        at htaken
      rcases List.mem_pair.mp hr with rfl | rfl
      · exact htaken.1
      · exact htaken.2
    · intro s inp o _ _ hm
      exact ⟨⟨rfl, rfl⟩, hm⟩
  · rintro s hi ⟨hu, hm⟩
    refine (triple_plain (q := .refreshUser u.id) trivial (by simp)
      (refreshes_plain fun _ _ _ => rfl)).conseq
      (fun _ _ h => h) (fun r s h => ?_) s hi hm
    cases r with
    | ok a => exact ⟨u, hu, h⟩
    | error e => exact h

theorem triple_register {data : UserCreate} :
    Triple engine (contract db₀) i (.register data) (Mid i none [] [] [])
      (UserService.register data) Any := by
  have hQ : Lenient i none (Any (β := User)) := Any.lenient
  refine triple_next hQ (triple_plain trivial (by simp) (reads_plain fun _ _ _ => rfl)) ?_
  refine fun existing => triple_raiseIf hQ (fun _ => ?_)
  refine triple_next hQ (triple_plain trivial (by simp) ?_) (fun salt => ?_)
  · intro inp db o e a he _
    cases he
    exact ⟨rfl, rfl⟩
  refine triple_next hQ triple_createUser (fun user => ?_)
  rintro s hi ⟨u, ⟨hname, hemail⟩, hm⟩
  refine triple_commitOnce rfl (fun s hm => ?_) ?_ s hi hm
  · exact ⟨u, hname, hemail, (hm.frees (.user u.id) (by simp)).2,
      (hm.frees (.email u.email) (by simp)).2, rfl⟩
  · refine uses_onConflict (q := .refreshUser user.id) (by simp) rfl rfl (fun x hx => ?_)
    cases x with
    | db e =>
        cases e with
        | integrity => exact absurd rfl hx
        | _ => rfl
    | _ => rfl

/-- The wallet is inserted with zero balances and read back. -/
theorem triple_createRow {owner : Uuid} {currency : String} :
    Triple engine (contract db₀) i t (Mid i none [] [] []) (WalletRepository.create owner currency)
      (Ends (fun _ s => ∃ w : Wallet, (w.userId = owner ∧ w.currency = currency
          ∧ w.availableBalance = 0 ∧ w.lockedBalance = 0)
        ∧ Mid i none [.insertWallet w] [] [.wallet w.id, .walletOwner w.userId w.currency] s)
        (Missed i none)) := by
  refine triple_next Ends.lenient (P := fun w s => (w.userId = owner ∧ w.currency = currency
      ∧ w.availableBalance = 0 ∧ w.lockedBalance = 0)
    ∧ Mid i none [.insertWallet w] [] [.wallet w.id, .walletOwner w.userId w.currency] s)
    ?_ (fun w => ?_)
  · refine Mid.inserts (fun _ _ _ => rfl) ?_ trivial (by simp)
      (fun _ => .and (.const _) Mid.stable) ?_
    · intro inp db o htaken r hr
      simp only [Bool.or_eq_false_iff, Option.isSome_eq_false_iff, Option.isNone_iff_eq_none]
        at htaken
      rcases List.mem_pair.mp hr with rfl | rfl
      · exact htaken.1
      · exact htaken.2
    · intro s inp o _ _ hm
      exact ⟨⟨rfl, rfl, rfl, rfl⟩, hm⟩
  · rintro s hi ⟨hw, hm⟩
    refine (triple_plain (q := .refreshWallet w.id) trivial (by simp)
      (refreshes_plain fun _ _ _ => rfl)).conseq
      (fun _ _ h => h) (fun r s h => ?_) s hi hm
    cases r with
    | ok a => exact ⟨w, hw, h⟩
    | error e => exact h

theorem triple_createWallet {owner : Uuid} {data : WalletCreate} :
    Triple engine (contract db₀) i (.createWallet owner data) (Mid i none [] [] [])
      (WalletService.createWallet owner data) Any := by
  have hQ : Lenient i none (Any (β := Wallet)) := Any.lenient
  refine triple_next hQ (triple_plain trivial (by simp) (reads_plain fun _ _ _ => rfl)) ?_
  refine fun existing => triple_raiseIf hQ (fun _ => ?_)
  refine triple_next hQ triple_createRow (fun wallet => ?_)
  rintro s hi ⟨w, ⟨howner, hcur, hb, hl⟩, hm⟩
  refine triple_commitOnce rfl (fun s hm => ?_) ?_ s hi hm
  · exact ⟨w, howner, hcur, hb, hl, (hm.frees (.wallet w.id) (by simp)).2,
      (hm.frees (.walletOwner w.userId w.currency) (by simp)).2, rfl⟩
  · refine uses_onConflict (q := .refreshWallet wallet.id) (by simp) rfl rfl (fun x hx => ?_)
    cases x with
    | db e =>
        cases e with
        | integrity => exact absurd rfl hx
        | _ => rfl
    | _ => rfl

/-! ## The workers -/

/-- The requests that keep out of the books. -/
def Request.isWorker : Request → Bool
  | .publish _ _ _ | .handleEvent _ | .analyticsConsumer => true
  | _ => false

/-- A worker has buffered nothing but its own kind of writes. -/
def Aside (i : Sid) (t : Request) (s : LedgerStore) : Prop := ∀ w ∈ s.pending i, w.area = t.area

theorem Aside.stable : Stable engine (contract db₀) i (Aside i t) := by
  intro s s' h hr
  unfold Aside
  rw [hr.frame.pending]
  exact h

omit [Runtime] in
/-- A worker's vocabulary lets it write in its own area only. -/
theorem area_of_mem {w : Write} (ht : t.isWorker = true) (h : w.area ∈ t.areas) :
    w.area = t.area := by
  cases t with
  | publish p topic n => cases w <;> simp_all [Write.area, Request.areas, Request.area]
  | handleEvent p => cases w <;> simp_all [Write.area, Request.areas, Request.area]
  | analyticsConsumer => cases w <;> simp_all [Write.area, Request.areas, Request.area]
  | _ => exact absurd ht (by simp [Request.isWorker])

theorem Legal.ofWorker {db : Db} (ht : t.isWorker = true) (h : ∀ w ∈ ws, w.area = t.area) :
    Legal t db ws := by
  cases t with
  | publish | handleEvent | analyticsConsumer => exact h
  | _ => exact absurd ht (by simp [Request.isWorker])

/-- **Workers keep the contract by their vocabulary alone.** -/
theorem triple_worker {p : Tx β} (ht : t.isWorker = true) (hp : Keeps t.areas p) :
    Triple engine (contract db₀) i t (Aside i t) p (fun _ => Aside i t) := by
  have hmoney : t.movesMoney = false := by
    cases t <;> simp_all [Request.isWorker, Request.movesMoney]
  refine .uses hp Aside.stable ?_
  intro q hq s inp r s' hi ha hx
  by_cases hc : q = .commit
  · subst hc
    have hdrawn : ∀ e, .insertEntry e ∈ s.pending i → Drawn e s := by
      intro e he
      have harea := ha _ he
      cases t <;> simp_all [Request.isWorker, Write.area, Request.area]
    obtain ⟨hg, hpend, -⟩ := guar_commit hi hx (.ofWorker ht ha) hdrawn (by rw [hmoney]; simp)
    exact ⟨hg, by rw [Aside, hpend]; simp⟩
  · refine ⟨guar_quiet hi hx hc, ?_⟩
    obtain ⟨e, he, -, -, ho⟩ := exec_outcome hx
    cases ho with
    | commit ctl => exact absurd ((run_within he).commit ctl) hc
    | abort _ _ _ idle => rw [Aside, idle.pending]; simp
    | stay _ _ _ pending =>
        intro w hw
        rw [pending, List.mem_append] at hw
        rcases hw with hw | hw
        · exact ha w hw
        · rcases (run_within he).writes with h₀ | ⟨w', h₁, hwr, -⟩
          · rw [h₀] at hw; exact absurd hw (by simp)
          · rw [h₁, List.mem_singleton] at hw
            subst hw
            exact area_of_mem ht (by rw [Stmt.write_area hwr]; exact hq)

/-! ## Soundness -/

/-- What comes after a money operation changes nothing about how it ended. -/
theorem triple_settled {p : Tx β} {r : Except Exn Reply}
    (hp : p.Uses (fun q => q ≠ .commit ∧ q.isReplayRead = false)) :
    Triple engine (contract db₀) i t (fun s => Moved i t s r) p (fun _ s => Moved i t s r) := by
  refine .uses hp Moved.stable ?_
  rintro q ⟨hc, hq⟩ s inp r' s' hi hm hx
  have hreads : readsOf i s' = readsOf i s := by
    rw [readsOf_exec hx, hq]
    exact List.append_nil _
  obtain ⟨_, -, -, -, -, hcommits, -⟩ := exec_quiet hx hc
  exact ⟨guar_quiet hi hx hc, hm.mono hreads ⟨[], by rw [hcommits, List.append_nil], by simp⟩
    ⟨_, exec_trace hx⟩⟩

/-- A money operation and the invalidation after it. -/
theorem triple_invalidating {p : Tx (Transaction × Option Wallet)} {ids : List Uuid}
    (hp : Triple engine (contract db₀) i t (Mid i t.key [] [] []) p (MovedBy i t)) :
    Triple engine (contract db₀) i t (Mid i t.key [] [] [])
      (do let r ← p; BalanceCache.invalidate ids; pure r) (MovedBy i t) := by
  refine .bind (contract_preorder db₀) hp (fun r => ?_)
    (fun e => .raise Moved.stable (fun _ _ h => h))
  by_cases hids : ids = []
  · unfold BalanceCache.invalidate
    rw [if_pos hids]
    exact .ret Moved.stable (fun _ _ h => h)
  unfold BalanceCache.invalidate
  rw [if_neg hids]
  -- whatever the cache client does is handed on as a value
  refine .bind (contract_preorder db₀) (Q := fun x s => x = .ok ()
    ∧ Moved i t s (.ok (Reply.ofMoved r)))
    (.bind (contract_preorder db₀) (Q := fun x s => (∃ a, x = .ok a)
      ∧ Moved i t s (.ok (Reply.ofMoved r)))
      (.handle (contract_preorder db₀) (Q := fun _ s => Moved i t s (.ok (Reply.ofMoved r)))
        (triple_settled (.perform ⟨by simp, rfl⟩)) (fun x => ?_)) (fun _ => ?_) (fun e => ?_))
    (fun _ => ?_) (fun e => ?_)
  · exact .ret Moved.stable (fun _ _ h => ⟨⟨x, rfl⟩, h⟩)
  · rintro s hi ⟨-, hm⟩
    exact Triple.ret Moved.stable (fun _ _ h => ⟨rfl, h⟩) s hi hm
  · rintro s hi ⟨⟨a, ha⟩, -⟩
    exact absurd ha (by simp)
  · rintro s hi ⟨-, hm⟩
    exact Triple.ret Moved.stable (fun _ _ h => h) s hi hm
  · rintro s hi ⟨he, -⟩
    exact absurd he (by simp)

/-- Closing the session changes nothing about how a money operation ended. -/
theorem triple_close {r : Except Exn Reply} :
    Triple engine (contract db₀) i t (fun s => Moved i t s r)
      (do query .close; ofExcept r) (fun r s => Moved i t s r) := by
  have hclose : Triple engine (contract db₀) i t (fun s => Moved i t s r) (query .close)
      (fun r' s => (r' = .ok ()) ∧ Moved i t s r) := by
    refine .perform Moved.stable (fun _ => .and (.const _) Moved.stable) ?_
    intro s inp r' s' hi hm hx
    have hreads : readsOf i s' = readsOf i s := by
      rw [readsOf_exec hx]
      exact List.append_nil _
    refine ⟨guar_quiet hi hx (by simp), ?_⟩
    obtain ⟨e, he, hr, -, -, hcommits, -⟩ := exec_quiet hx (by simp)
    cases he
    exact ⟨hr, hm.mono hreads ⟨[], by rw [hcommits, List.append_nil], by simp⟩ ⟨_, exec_trace hx⟩⟩
  refine .bind (contract_preorder db₀) hclose (fun _ => ?_) (fun e => ?_)
  · rintro s hi ⟨-, hm⟩
    cases r with
    | ok a => exact Triple.ret Moved.stable (fun _ _ h => h) s hi hm
    | error e => exact Triple.raise Moved.stable (fun _ _ h => h) s hi hm
  · rintro s hi ⟨he, -⟩
    exact absurd he (by simp)

/-- A money operation under `get_db`. -/
theorem triple_money {p : Tx (Transaction × Option Wallet)} {ids : List Uuid}
    (hp : Triple engine (contract db₀) i t (Mid i t.key [] [] []) p (MovedBy i t)) :
    Triple engine (contract db₀) i t (Mid i t.key [] [] [])
      (withSession (Reply.ofMoved <$> (do let r ← p; BalanceCache.invalidate ids; pure r)))
      (fun r s => Moved i t s r) :=
  .handle (contract_preorder db₀) (.map (triple_invalidating hp)) (fun _ => triple_close)

/-- An operation with nothing to promise under `get_db`. -/
theorem triple_session {p : Tx β} {f : β → Reply}
    (hp : Triple engine (contract db₀) i t (Mid i none [] [] []) p Any) :
    Triple engine (contract db₀) i t (Mid i none [] [] []) (withSession (f <$> p)) Any := by
  refine .handle (contract_preorder db₀) (Q := Any) (.map hp) (fun r => triple_any ?_)
  exact .bind (.perform (by simp)) (fun _ => .ofExcept r)

/-- The requests that write nothing. -/
def Request.isReader : Request → Bool
  | .getBalance _ _ | .listTransactions _ _ _ _ | .reconcile => true
  | _ => false

/-- They do not commit. -/
theorem Request.program_quiet (t : Request) (ht : t.isReader = true) :
    t.program.Uses (· ≠ .commit) := by
  cases t with
  | getBalance w u =>
      refine uses_withSession (Uses.mono (uses_getBalance w u) ?_) (by simp)
      rintro q (rfl | rfl | ⟨payload, rfl⟩) <;> simp
  | listTransactions w limit offset u =>
      refine uses_withSession (Uses.mono (uses_listTransactions w limit offset u) ?_) (by simp)
      rintro q (rfl | rfl) <;> simp
  | reconcile =>
      refine uses_withSession (Uses.mono uses_check ?_) (by simp)
      rintro q (rfl | rfl) <;> simp
  | _ => exact absurd ht (by simp [Request.isReader])

/-- Every program meets its postcondition from a fresh session. -/
theorem triple_program : Triple engine (contract db₀) i t (Fresh i) t.program (Ended i t) := by
  have hworker : t.isWorker = true → Triple engine (contract db₀) i t (Fresh i) t.program
      (fun _ => Aside i t) := fun ht =>
    (triple_worker ht t.program_keeps).conseq
      (fun s _ h => by unfold Aside; rw [h.pending]; simp) (fun _ _ h => h)
  have hreader : t.isReader = true → Triple engine (contract db₀) i t (Fresh i) t.program Any :=
    fun ht => (triple_any (t.program_quiet ht)).conseq (fun _ _ _ => trivial) (fun _ _ h => h)
  cases t with
  | register data =>
      exact (triple_session triple_register).conseq (fun _ _ => .ofFresh) (fun _ _ h => h)
  | createWallet o data =>
      exact (triple_session triple_createWallet).conseq (fun _ _ => .ofFresh) (fun _ _ h => h)
  | deposit w u data =>
      exact (triple_money triple_deposit).conseq (fun _ _ => .ofFresh) (fun _ _ h => h)
  | transfer w u data k =>
      exact (triple_money triple_transfer).conseq (fun _ _ => .ofFresh) (fun _ _ h => h)
  | withdraw w u data k =>
      exact (triple_money triple_withdraw).conseq (fun _ _ => .ofFresh) (fun _ _ h => h)
  | publish p topic n => exact hworker rfl
  | handleEvent p => exact hworker rfl
  | analyticsConsumer => exact hworker rfl
  | getBalance w u => exact hreader rfl
  | listTransactions w limit offset u => exact hreader rfl
  | reconcile => exact hreader rfl

/-- **The contract of the books is sound.** -/
theorem contract_sound (db₀ : Db) : Sound system (contract db₀) (LedgerStore.start db₀) where
  pre := contract_preorder db₀
  init := by
    refine ⟨⟨.nil db₀, ?_, .nil, ?_, .nil⟩, fun i => .init i db₀ Outside.init⟩
    · intro o ho; exact absurd ho (by simp [LedgerStore.start, Store.init])
    · intro c hc; exact absurd hc (by simp [LedgerStore.start, Store.init])
  start := fun i t s hi hf => triple_program s hi hf
  again := by
    intro i t p a s hp hi ha
    have hp : t.next = some p := hp
    cases t with
    | analyticsConsumer => exact triple_worker rfl (Request.next_keeps hp) s hi ha
    | _ => exact absurd hp (by simp [Request.next])
  crash := fun i s hi => ⟨fun j _ => ⟨.refl _, Nat.le_refl _⟩,
    hi.quiet rfl rfl (Nat.le_refl _) (fun o ho => .inl ho)⟩
  env := by
    intro x a s hi hx
    have hseq : s.aux.seq ≤ a.seq := (Outside.move_same hx).1.ge
    exact ⟨fun j => ⟨.refl _, hseq⟩, hi.quiet rfl rfl hseq (fun o ho => .inl ho)⟩

/-- **Every reachable world is settled.** -/
theorem reachable_settled {w : LedgerWorld} (h : ReachableFrom db₀ w) : Settled db₀ w.store :=
  ((contract_sound db₀).reachable h).inv

/-- How a session that has ended did so. -/
theorem reachable_ended {w : LedgerWorld} (h : ReachableFrom db₀ w) {r : Except Exn Reply}
    (hs : ended w i = some (t, r)) : Ended i t r w.store := by
  have hp := (contract_sound db₀).reachable h
  unfold ended at hs
  obtain ⟨⟨t', p⟩, hsess, hs⟩ := Option.bind_eq_some_iff.mp hs
  obtain ⟨r', hout, he⟩ := Option.map_eq_some_iff.mp hs
  cases he
  cases p with
  | call q k => exact absurd hout (by simp [outcome])
  | ret a =>
      cases hout
      exact hp.returned (contract_sound db₀) hsess
  | raise e =>
      cases hout
      exact hp.raised (contract_sound db₀) hsess

/-- How a money request ended. -/
theorem reachable_moved {w : LedgerWorld} (h : ReachableFrom db₀ w) {r : Except Exn Reply}
    (ht : t.movesMoney = true) (hs : ended w i = some (t, r)) :
    Moved i t w.store r := by
  have hend := reachable_ended h hs
  cases t with
  | deposit | transfer | withdraw => exact hend
  | _ => exact absurd ht (by simp [Request.movesMoney])

end WalletLedger
