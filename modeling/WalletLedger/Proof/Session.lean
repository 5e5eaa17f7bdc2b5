import WalletLedger.Proof.Contract

/-!
# A session in the middle of its transaction

`Mid` is what the money operations know about themselves between two statements:
what they have buffered, which wallet rows they have locked and read, which keys
they have locked and found free. All of it survives whatever the other sessions
do (`Mid.stable`), because it is about locked resources or about the session's own
part of the history. That is the whole argument against lost updates: a row read
under a lock is still the committed row at the commit.
-/

namespace WalletLedger

open Isolation Prog

variable [Runtime]

/-- Every replay read so far was a lookup that missed, and nothing is committed. -/
structure Missed (i : Sid) (key : Option String) (s : LedgerStore) : Prop where
  reads : ∀ o ∈ readsOf i s, Unbound key o
  quiet : Quiet i s

/-- Session `i` has buffered `ws`, holds the rows `wals` and the free keys `frees`. -/
structure Mid (i : Sid) (key : Option String) (ws : List Write) (wals : List Wallet)
    (frees : List Res) (s : LedgerStore) : Prop where
  pending : s.pending i = ws
  wals : ∀ w ∈ wals, (Res.wallet w.id, i) ∈ s.locks ∧ s.db.wallets.get w.id = some w
  frees : ∀ r ∈ frees, (r, i) ∈ s.locks ∧ r.Absent s.db
  missed : Missed i key s
  legs : ∀ e, .insertEntry e ∈ ws →
    Drawn e s ∧ ∀ id, e.walletId = some id → (Res.wallet id, i) ∈ s.locks

/-- A value satisfying `P`, or an exception and `L`. -/
def Ends {β : Type} (P : β → LedgerStore → Prop) (L : LedgerStore → Prop) :
    Except Exn β → LedgerStore → Prop
  | .ok a => P a
  | .error _ => L

variable {db₀ : Db} {i : Sid} {t : Request} {key : Option String} {ws : List Write}
  {wals : List Wallet} {frees : List Res} {β γ : Type}

/-! ## Stability -/

theorem Quiet.stable : Stable engine (contract db₀) i (Quiet i) := by
  intro s s' h hr
  obtain ⟨l, hl, -, hn⟩ := hr.frame.commits
  exact h.mono hl hn

omit [Runtime] in
/-- Nothing but a commit commits. -/
theorem Quiet.exec {q : Stmt} {inp : Inp} {s s' : LedgerStore} {r : Except Exn q.Ans}
    (h : Quiet i s) (hx : exec engine i t q inp s = some (r, s')) (hq : q ≠ .commit) :
    Quiet i s' := by
  obtain ⟨_, -, -, -, -, hc, -⟩ := exec_quiet hx hq
  unfold Quiet
  rw [hc]
  exact h

theorem Missed.stable : Stable engine (contract db₀) i (Missed i key) := by
  intro s s' h hr
  refine ⟨?_, Quiet.stable s s' h.quiet hr⟩
  rw [readsOf_frame hr.frame]
  exact h.reads

omit [Runtime] in
theorem Side.mem_dirty {side : Side} {id : Uuid} (delta : Int) (h : side.walletId = some id) :
    ∃ w ∈ side.dirty delta, w.id = id := by
  cases side with
  | funding => exact absurd h (by simp [Side.walletId])
  | wallet w => exact ⟨_, List.mem_singleton.mpr rfl, by simpa [Side.walletId] using h⟩

/-- A commit that writes a leg on a wallet holds the wallet. -/
theorem Legal.leg_held {db : Db} (h : Legal t db ws) {e : LedgerEntry} (he : .insertEntry e ∈ ws)
    {id : Uuid} (hid : e.walletId = some id) : ∃ w ∈ ws, Res.wallet id ∈ w.footprint := by
  rcases h.cases with ⟨u, -, rfl⟩ | ⟨w, -, -, rfl⟩ | ⟨mv, m, -, hok, -, rfl⟩ | hw
  · exact absurd he (by simp)
  · exact absurd he (by simp)
  · have hperm : (TransactionRepository.inKeyOrder mv.dirty).Perm mv.dirty :=
      List.perm_insertionSort _ _
    have hleg : e = mv.debit m ∨ e = mv.credit m := by
      have hmem : e ∈ mv.legs m := by
        simpa [Movement.writes, Movement.balances] using he
      unfold Movement.legs at hmem
      split at hmem
      · exact (List.mem_pair.mp hmem).symm
      · exact List.mem_pair.mp hmem
    have hdirty : ∃ w ∈ mv.dirty, w.id = id := by
      rcases hleg with rfl | rfl
      · obtain ⟨w, hw, he⟩ := Side.mem_dirty (-mv.amount) hid
        exact ⟨w, List.mem_append_left _ hw, he⟩
      · obtain ⟨w, hw, he⟩ := Side.mem_dirty mv.amount hid
        exact ⟨w, List.mem_append_right _ hw, he⟩
    obtain ⟨w, hmem, rfl⟩ := hdirty
    refine ⟨.setBalance w.id w.availableBalance (m.updatedAt w.id), ?_, by simp [Write.footprint]⟩
    have hbal : .setBalance w.id w.availableBalance (m.updatedAt w.id) ∈ mv.balances m :=
      List.mem_map.mpr ⟨w, hperm.mem_iff.mpr hmem, rfl⟩
    simp [Movement.writes, hbal]
  · exact absurd rfl (hw _ he)

/-- **Nobody else commits a leg on a wallet the session holds**, so a number drawn under
the lock stays the highest on its wallet. -/
theorem Drawn.stable {e : LedgerEntry} : Stable engine (contract db₀) i
    (fun s => Drawn e s ∧ ∀ id, e.walletId = some id → (Res.wallet id, i) ∈ s.locks) := by
  rintro s s' ⟨h, hl⟩ hr
  refine ⟨⟨Nat.lt_of_lt_of_le h.seq hr.rely.2, ?_⟩, fun id hid =>
    (hr.frame.locks _).mpr (hl id hid)⟩
  intro id hid c hc e' he' hid'
  obtain ⟨l, hcs, hapart⟩ := hr.frame.apart
  rw [hcs, List.mem_append] at hc
  rcases hc with hc | hc
  · exact h.latest id hid c hc e' he' hid'
  · have hinv : Settled db₀ s' := hr.inv
    have hmem : c ∈ s'.commits := by rw [hcs]; exact List.mem_append_right _ hc
    obtain ⟨d, hlegal⟩ := hinv.history.legal hmem
    obtain ⟨w, hw, hfoot⟩ := hlegal.leg_held he' hid'
    exact absurd (hl id hid) (hapart c hc w hw _ hfoot)

/-- **Nobody else can change what a session has locked.** -/
theorem Mid.stable : Stable engine (contract db₀) i (Mid i key ws wals frees) := by
  intro s s' h hr
  refine ⟨hr.frame.pending.trans h.pending, ?_, ?_, Missed.stable s s' h.missed hr,
    fun e he => Drawn.stable s s' (h.legs e he) hr⟩
  · intro w hw
    obtain ⟨hl, hg⟩ := h.wals w hw
    exact ⟨(hr.frame.locks _).mpr hl, (hr.frame.held _ hl).trans hg⟩
  · intro r hr'
    obtain ⟨hl, ha⟩ := h.frees r hr'
    exact ⟨(hr.frame.locks _).mpr hl, ha.same (hr.frame.held _ hl)⟩

omit [Runtime] in
theorem Ends.stable {C : Contract Db Write Res Outside Stmt Inp Exn Request Reply}
    {P : β → LedgerStore → Prop} {L : LedgerStore → Prop} (hP : ∀ a, Stable engine C i (P a))
    (hL : Stable engine C i L) (r : Except Exn β) : Stable engine C i (Ends P L r) := by
  cases r with
  | ok a => exact hP a
  | error e => exact hL

omit [Runtime] in
/-- Forget some of what is held. -/
theorem Mid.weaken {wals' : List Wallet} {frees' : List Res} {s : LedgerStore}
    (h : Mid i key ws wals frees s) (hw : wals' ⊆ wals) (hf : frees' ⊆ frees) :
    Mid i key ws wals' frees' s :=
  ⟨h.pending, fun w hw' => h.wals w (hw hw'), fun r hr => h.frees r (hf hr), h.missed, h.legs⟩

omit [Runtime] in
/-- A fresh session. -/
theorem Mid.ofFresh {s : LedgerStore} (h : Fresh i s) : Mid i key [] [] [] s :=
  ⟨h.pending, by simp, by simp, ⟨by rw [readsOf_fresh h]; simp, h.commits⟩, by simp⟩

/-! ## Rules -/

/-- An exception needs nothing but missed lookups. -/
def Lenient (i : Sid) (key : Option String) (Q : Except Exn β → LedgerStore → Prop) : Prop :=
  ∀ e s, Missed i key s → Q (.error e) s

omit [Runtime] in
theorem Ends.lenient {P : β → LedgerStore → Prop} : Lenient i key (Ends P (Missed i key)) :=
  fun _ _ h => h

section rules

variable {Q : Except Exn γ → LedgerStore → Prop}

/-- Go on after a value; an exception ends the operation with nothing to add. -/
theorem triple_next {A : LedgerStore → Prop} {P : β → LedgerStore → Prop} {p : Tx β} {f : β → Tx γ}
    (hQ : Lenient i key Q) (hp : Triple engine (contract db₀) i t A p (Ends P (Missed i key)))
    (hf : ∀ a, Triple engine (contract db₀) i t (P a) (f a) Q) :
    Triple engine (contract db₀) i t A (p >>= f) Q :=
  .bind (contract_preorder db₀) hp hf (fun e => .raise Missed.stable (fun s _ h => hQ e s h))

omit [Runtime] in
/-- The statements of a transaction: no replay reads, and legs only on wallets it holds. -/
def Stmt.Inside (wals : List Wallet) : Stmt → Prop
  | .selectTransactionByKey _ | .selectWallet _ => False
  | .insertEntry _ _ _ _ walletId _ => ∀ id, walletId = some id → ∃ w ∈ wals, w.id = id
  | _ => True

omit [Runtime] in
theorem Stmt.Inside.isReplayRead {q : Stmt} (h : q.Inside wals) : q.isReplayRead = false := by
  cases q with
  | selectTransactionByKey | selectWallet => exact absurd h (by simp [Stmt.Inside])
  | _ => rfl

/-- `raise` from the middle of an operation. -/
theorem triple_raise {e : Exn} (hQ : Lenient i key Q) :
    Triple engine (contract db₀) i t (Mid i key ws wals frees) (.raise e) Q :=
  .raise Mid.stable (fun s _ h => hQ e s h.missed)

/-- `if c: raise e`, then the rest with `c` excluded. -/
theorem triple_raiseIf {c : Prop} [Decidable c] {e : Exn} {f : Unit → Tx γ} (hQ : Lenient i key Q)
    (h : ¬c → Triple engine (contract db₀) i t (Mid i key ws wals frees) (f ()) Q) :
    Triple engine (contract db₀) i t (Mid i key ws wals frees) (raiseIf c e >>= f) Q := by
  unfold raiseIf
  by_cases hc : c
  · rw [if_pos hc]; exact triple_raise hQ
  · rw [if_neg hc]; exact h hc

end rules

/-! ## The shapes of statements, when they succeed -/

section shapes

variable {inp : Inp} {o o' : Outside} {w : Write} {locks : List Res} {r : Res}
  {check clash : Option DbError} {a b : β}

omit [Runtime] in
theorem writes_ok (h : (writes inp o check locks clash w a o').ans = .ok b) :
    check = none ∧ clash = none ∧ b = a
      ∧ writes inp o check locks clash w a o'
          = { locks := locks, writes := [w], ans := .ok a, aux := o' } := by
  unfold writes at h ⊢
  cases hf : inp.fault with
  | some e => rw [hf] at h; exact absurd h (by simp [failed])
  | none =>
      rw [hf] at h
      cases check with
      | some e => exact absurd h (by simp [failed])
      | none =>
          cases clash with
          | some e => exact absurd h (by simp [failed])
          | none => exact ⟨rfl, rfl, (Except.ok.inj h).symm, rfl⟩

omit [Runtime] in
/-- An INSERT that went through found its unique values free. -/
theorem inserts_free {taken : Bool} (h : (if taken then some DbError.integrity else none) = none) :
    taken = false := by
  cases taken with
  | false => rfl
  | true => exact absurd h (by simp)

omit [Runtime] in
theorem reads_ok (h : (reads inp o a).ans = .ok b) :
    inp.fault = none ∧ b = a ∧ reads inp o a = { ans := .ok a, aux := o } := by
  unfold reads at h ⊢
  cases hf : inp.fault with
  | some e => rw [hf] at h; exact absurd h (by simp [failed])
  | none => rw [hf] at h; exact ⟨rfl, (Except.ok.inj h).symm, rfl⟩

omit [Runtime] in
theorem readsChecked_ok {check : Option DbError} (h : (readsChecked inp o check a).ans = .ok b) :
    b = a ∧ readsChecked inp o check a = { ans := .ok a, aux := o } := by
  rcases readsChecked_cases inp o check a with ⟨e, -, he⟩ | ⟨-, -, he⟩
  · rw [he] at h
    exact absurd h (by simp [failed])
  · rw [he] at h
    exact ⟨(Except.ok.inj h).symm, he⟩

omit [Runtime] in
theorem refreshes_ok {x : Option β} (h : (refreshes inp o x).ans = .ok b) :
    x = some b ∧ refreshes inp o x = { ans := .ok b, aux := o } := by
  unfold refreshes at h ⊢
  cases hf : inp.fault with
  | some e => rw [hf] at h; exact absurd h (by simp [failed])
  | none =>
      rw [hf] at h
      cases x with
      | none => exact absurd h (by simp [failed])
      | some c => rw [Except.ok.inj h]; exact ⟨rfl, rfl⟩

omit [Runtime] in
theorem readsLocked_ok {x y : Option β} (h : (readsLocked inp o x r).ans = .ok y) :
    y = x ∧ readsLocked inp o x r
      = { locks := if x.isSome then [r] else [], ans := .ok x, aux := o } := by
  unfold readsLocked at h ⊢
  cases hf : inp.fault with
  | some e => rw [hf] at h; exact absurd h (by simp [failed])
  | none => rw [hf] at h; exact ⟨(Except.ok.inj h).symm, rfl⟩

end shapes

/-! ## One statement of a transaction -/

/-- A statement that leaves the transaction open draws the numbers of its legs last. -/
theorem Mid.draw {q : Stmt} {inp : Inp} {s s' : LedgerStore}
    {e : Effect Write Res Outside Exn q.Ans}
    (hi : Settled db₀ s) (hm : Mid i key ws wals frees s) (hq : q.Inside wals)
    (he : run q inp i (s.db.applyAll ws) s.aux = some e) (haux : s'.aux = e.aux)
    (hcommits : s'.commits = s.commits)
    (hlocks : ∀ r, (r, i) ∈ s'.locks ↔ (r, i) ∈ s.locks ∨ r ∈ e.locks) :
    ∀ x, .insertEntry x ∈ ws ++ e.writes →
      Drawn x s' ∧ ∀ id, x.walletId = some id → (Res.wallet id, i) ∈ s'.locks := by
  have hseq : s.aux.seq ≤ s'.aux.seq := by
    rw [haux]
    exact (run_within he).seq
  intro x hx
  rcases List.mem_append.mp hx with hx | hx
  · obtain ⟨hd, hl⟩ := hm.legs x hx
    refine ⟨⟨Nat.lt_of_lt_of_le hd.seq hseq, by rw [hcommits]; exact hd.latest⟩, fun id hid => ?_⟩
    exact (hlocks _).mpr (.inl (hl id hid))
  · cases q with
    | insertEntry txn type amount currency walletId account =>
        have hans : ∃ a, e.ans = .ok a := by
          cases hans : e.ans with
          | ok a => exact ⟨a, rfl⟩
          | error y => 
              exfalso
              revert hx
              cases he
              revert hans
              unfold inserts WalletLedger.writes
              split <;> simp [failed]
        obtain ⟨a, hans⟩ := hans
        cases he
        obtain ⟨-, -, -, heq⟩ := writes_ok hans
        rw [inserts, heq] at hx haux
        have hxe : x = ⟨inp.uuid, s.aux.seq, txn, type, amount, currency, walletId,
            account, inp.now⟩ := by
          simpa using hx
        subst hxe
        refine ⟨⟨by rw [haux]; exact Nat.lt_succ_self _, ?_⟩, fun id hid => ?_⟩
        · intro id hid c hc e' he' hid'
          rw [hcommits] at hc
          exact hi.drawn c hc e' he'
        · obtain ⟨w, hw, rfl⟩ := hq id hid
          exact (hlocks _).mpr (.inl (hm.wals w hw).1)
    | _ =>
        rcases (run_within he).writes with h₀ | ⟨w, h₁, hwr, -⟩
        · rw [h₀] at hx; exact absurd hx (by simp)
        · rw [h₁, List.mem_singleton] at hx
          subst hx
          exact absurd hwr (by simp [Stmt.write])

/-- What a statement does to a session in the middle of its transaction. -/
theorem Mid.exec {q : Stmt} {inp : Inp} {s s' : LedgerStore} {r : Except Exn q.Ans}
    (hi : Settled db₀ s) (hm : Mid i key ws wals frees s) (hq : q.Inside wals) (hc : q ≠ .commit)
    (hx : exec engine i t q inp s = some (r, s')) :
    ∃ e, run q inp i (s.db.applyAll ws) s.aux = some e ∧ r = e.ans ∧ s'.db = s.db
      ∧ ((e.ctl = .stay ∧ Mid i key (ws ++ e.writes) wals frees s'
            ∧ ∀ x ∈ e.locks, (x, i) ∈ s'.locks)
          ∨ e.ctl = .abort ∧ Mid i key [] [] [] s') := by
  have hreads := readsOf_exec hx
  rw [hq.isReplayRead] at hreads
  simp only [Bool.false_eq_true, if_false, List.append_nil] at hreads
  have hmiss : s'.commits = s.commits → Missed i key s' := by
    intro hcommits
    refine ⟨by rw [hreads]; exact hm.missed.reads, ?_⟩
    unfold Quiet
    rw [hcommits]
    exact hm.missed.quiet
  obtain ⟨e, he, hr, haux, ho⟩ := exec_outcome hx
  have he' : run q inp i (s.db.applyAll ws) s.aux = some e := by
    rw [← hm.pending]; exact he
  refine ⟨e, he', hr, ?_⟩
  cases ho with
  | stay ctl db commits pending locks =>
      refine ⟨db, .inl ⟨ctl, ⟨by rw [pending, hm.pending], ?_, ?_, hmiss commits,
        hm.draw hi hq he' haux commits locks⟩, ?_⟩⟩
      · intro w hw
        rw [db]
        exact ⟨(locks _).mpr (.inl (hm.wals w hw).1), (hm.wals w hw).2⟩
      · intro x hx
        rw [db]
        exact ⟨(locks _).mpr (.inl (hm.frees x hx).1), (hm.frees x hx).2⟩
      · exact fun x hx => (locks x).mpr (.inr hx)
  | abort ctl db commits idle =>
      exact ⟨db, .inr ⟨ctl, idle.pending, by simp, by simp, hmiss commits, by simp⟩⟩
  | commit ctl => exact absurd ((run_within he).commit ctl) hc

/-- One statement of a transaction: only its success needs a thought. -/
theorem Mid.triple {q : Stmt} {P : q.Ans → LedgerStore → Prop} (hq : q.Inside wals)
    (hc : q ≠ .commit) (hP : ∀ a, Stable engine (contract db₀) i (P a))
    (h : ∀ s s' inp e a, Mid i key ws wals frees s →
      run q inp i (s.db.applyAll ws) s.aux = some e → e.ans = .ok a → s'.db = s.db →
      (e.ctl = .stay → Mid i key (ws ++ e.writes) wals frees s' ∧ ∀ x ∈ e.locks,
        (x, i) ∈ s'.locks) →
      (e.ctl = .abort → Mid i key [] [] [] s') → P a s') :
    Triple engine (contract db₀) i t (Mid i key ws wals frees) (query q)
      (Ends P (Missed i key)) := by
  refine .perform Mid.stable (Ends.stable hP Missed.stable) ?_
  intro s inp r s' hi hm hx
  refine ⟨guar_quiet hi hx hc, ?_⟩
  obtain ⟨e, he, hr, hdb, ho⟩ := hm.exec hi hq hc hx
  cases r with
  | ok a =>
      refine h s s' inp e a hm he hr.symm hdb ?_ ?_
      · intro hs
        rcases ho with ⟨-, ho⟩ | ⟨ha, -⟩
        · exact ho
        · rw [hs] at ha; exact absurd ha (by simp)
      · intro ha
        rcases ho with ⟨hs, -⟩ | ⟨-, ho⟩
        · rw [ha] at hs; exact absurd hs (by simp)
        · exact ho
  | error x =>
      rcases ho with ⟨-, ho, -⟩ | ⟨-, ho⟩
      · exact ho.missed
      · exact ho.missed


/-- A change of rows: it is checked, locked and buffered. -/
theorem Mid.writes {q : Stmt} {P : q.Ans → LedgerStore → Prop}
    {check clash : Db → Inp → Outside → Option DbError} {locks : Inp → Outside → List Res}
    {w : Inp → Outside → Write} {a : Inp → Outside → q.Ans} {o' : Inp → Outside → Outside}
    (hrun : ∀ inp db o, run q inp i db o = some (WalletLedger.writes inp o (check db inp o)
      (locks inp o) (clash db inp o) (w inp o) (a inp o) (o' inp o)))
    (hq : q.Inside wals) (hc : q ≠ .commit)
    (hP : ∀ a, Stable engine (contract db₀) i (P a))
    (h : ∀ s inp o, check (s.db.applyAll ws) inp o = none → clash (s.db.applyAll ws) inp o = none →
      Mid i key (ws ++ [w inp o]) wals frees s → (∀ x ∈ locks inp o, (x, i) ∈ s.locks) →
      P (a inp o) s) :
    Triple engine (contract db₀) i t (Mid i key ws wals frees) (query q)
      (Ends P (Missed i key)) := by
  refine Mid.triple hq hc hP ?_
  intro s s' inp e b hm he ha hdb hs _
  rw [hrun] at he
  cases he
  obtain ⟨h₁, h₂, rfl, h₃⟩ := writes_ok ha
  rw [h₃] at hs
  obtain ⟨hm', hl⟩ := hs rfl
  exact h s' inp s.aux (by rw [hdb]; exact h₁) (by rw [hdb]; exact h₂) hm' hl

/-- An INSERT: every unique value it brings is now held and free. -/
theorem Mid.inserts {q : Stmt} {P : q.Ans → LedgerStore → Prop}
    {check : Db → Inp → Outside → Option DbError} {taken : Db → Inp → Outside → Bool}
    {locks : Inp → Outside → List Res} {w : Inp → Outside → Write} {a : Inp → Outside → q.Ans}
    {o' : Inp → Outside → Outside}
    (hrun : ∀ inp db o, run q inp i db o = some (WalletLedger.inserts inp o (check db inp o)
      (locks inp o) (taken db inp o) (w inp o) (a inp o) (o' inp o)))
    (hfree : ∀ inp db o, taken db inp o = false → ∀ r ∈ locks inp o, r.Absent db)
    (hq : q.Inside wals) (hc : q ≠ .commit)
    (hP : ∀ a, Stable engine (contract db₀) i (P a))
    (h : ∀ s inp o, check (s.db.applyAll ws) inp o = none → taken (s.db.applyAll ws) inp o = false →
      Mid i key (ws ++ [w inp o]) wals (locks inp o ++ frees) s → P (a inp o) s) :
    Triple engine (contract db₀) i t (Mid i key ws wals frees) (query q)
      (Ends P (Missed i key)) := by
  refine Mid.writes hrun hq hc hP ?_
  intro s inp o h₁ h₂ hm hl
  have ht : taken (s.db.applyAll ws) inp o = false := inserts_free h₂
  refine h s inp o h₁ ht ⟨hm.pending, hm.wals, ?_, hm.missed, hm.legs⟩
  intro r hr
  rcases List.mem_append.mp hr with hr | hr
  · exact ⟨hl r hr, (hfree inp _ o ht r hr).of_applyAll⟩
  · exact hm.frees r hr

end WalletLedger
