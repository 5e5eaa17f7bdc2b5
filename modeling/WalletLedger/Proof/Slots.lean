import WalletLedger.Proof.Effects
import WalletLedger.Proof.Ledger
import WalletLedger.Proof.Trails

/-!
# Calls that want the same value

`create_wallet` and `register` both look for a unique value, insert a row that has
it, and commit; and both answer an `IntegrityError` of the *commit*. But the row is
flushed before the commit, so it is the INSERT that waits for a rival and fails
when the rival has committed, outside the handler.

A `Slot` is the value two calls may want. What the database promises about it is
durable: the first commit fills the slot for good (`Settled.filled`), and no other
commit can fill it again (`Settled.filled_once`). What a call answers depends on
which of its own statements meets the slot filled, the look-up or the INSERT; that
is its `Course`, read off its trail.
-/

namespace WalletLedger

open Isolation Prog

/-- A value of a unique constraint that calls compete for. -/
inductive Slot where
  /-- A user's wallet in a currency. -/
  | wallet (ownerId : Uuid) (currency : String)
  /-- The account under an email. -/
  | account (email : String)
  deriving DecidableEq

namespace Slot

/-- What an INSERT waits for while another session is inserting the value. -/
def res : Slot → Res
  | .wallet ownerId currency => .walletOwner ownerId currency
  | .account email => .email email

/-- What a call is to raise when the value is taken. -/
def conflict : Slot → Exn
  | .wallet _ currency => .walletAlreadyExists currency
  | .account email => .emailAlreadyExists email

/-- How many rows have the value. -/
def holders : Slot → Db → Nat
  | .wallet ownerId currency, db =>
      (db.wallets.rows.filter (fun w => decide (w.userId = ownerId ∧ w.currency = currency))).length
  | .account email, db => (db.users.rows.filter (fun u => decide (u.email = email))).length

/-- The calls that want the value. -/
def Wanted [Runtime] : Slot → Request → Prop
  | .wallet ownerId currency, .createWallet ownerId' data =>
      ownerId' = ownerId ∧ upper data.currency = currency
  | .account email, .register data => data.email = email
  | _, _ => False

/-- The sessions that run such a call, or have run one. -/
def Called [Runtime] (k : Slot) (w : LedgerWorld) (i : Sid) : Prop :=
  (∃ t p, w.sess i = some (t, p) ∧ k.Wanted t) ∨ ∃ o ∈ w.store.trace, o.sid = i ∧ k.Wanted o.tag

end Slot

/-! ## One row at most -/

section rows

variable {α κ : Type} {key : α → κ} [DecidableEq κ] {t : Table α κ key} {p : α → Bool}

/-- An INSERT adds the row it inserts or nothing. -/
theorem filter_insert_le (a : α) :
    ((t.insert a).rows.filter p).length ≤ (t.rows.filter p).length + 1 := by
  unfold Table.insert
  split
  · exact Nat.le_succ _
  · rw [List.filter_append, List.length_append]
    have hone := List.length_filter_le p [a]
    simp only [List.length_singleton] at hone
    omega

theorem filter_insert {a : α} (h : p a = false) :
    ((t.insert a).rows.filter p).length = (t.rows.filter p).length := by
  unfold Table.insert
  split
  · rfl
  · simp [List.filter_append, h]

/-- An UPDATE of other columns changes no count. -/
theorem filter_modify {k : κ} {f : α → α} (hf : ∀ a, key (f a) = key a) (hp : ∀ a, p (f a) = p a) :
    ((t.modify k f hf).rows.filter p).length = (t.rows.filter p).length := by
  rw [Table.rows_modify, List.filter_map, List.length_map]
  have hcomp : (p ∘ fun a => if key a = k then f a else a) = p := by
    funext a
    by_cases h : key a = k
    · simp [h, hp]
    · simp [h]
  rw [hcomp]

end rows

namespace Slot

variable {k : Slot} {db : Db} {w : Write} {ws : List Write}

theorem holders_eq_zero : k.holders db = 0 ↔ k.res.Absent db := by
  cases k with
  | wallet ownerId currency =>
      show List.length _ = 0 ↔ List.find? _ _ = none
      rw [List.length_eq_zero_iff, List.filter_eq_nil_iff, List.find?_eq_none]
  | account email =>
      show List.length _ = 0 ↔ List.find? _ _ = none
      rw [List.length_eq_zero_iff, List.filter_eq_nil_iff, List.find?_eq_none]

/-- Only the two INSERTs touch a slot, and only the slot of their own row. -/
theorem holders_apply (h : k.res ∉ w.footprint) : k.holders (db.apply w) = k.holders db := by
  cases w with
  | insertUser u =>
      cases k with
      | wallet => rfl
      | account email =>
          have hne : u.email ≠ email := fun he => h (by simp [Write.footprint, res, he])
          exact filter_insert (by simp [hne])
  | insertWallet x =>
      cases k with
      | wallet ownerId currency =>
          have hne : ¬(x.userId = ownerId ∧ x.currency = currency) := by
            rintro ⟨rfl, rfl⟩
            exact h (by simp [Write.footprint, res])
          exact filter_insert (by simp only [hne, decide_false])
      | account => rfl
  | setBalance id b now =>
      cases k with
      | wallet => exact filter_modify (f := Wallet.setBalance b now) (by intro; rfl) (fun _ => rfl)
      | account => rfl
  | _ => cases k <;> rfl

theorem holders_applyAll (h : ∀ w ∈ ws, k.res ∉ w.footprint) :
    k.holders (db.applyAll ws) = k.holders db := by
  induction ws generalizing db with
  | nil => rfl
  | cons w ws ih =>
      rw [Db.applyAll_cons, ih (fun w' hw' => h w' (by simp [hw']))]
      exact holders_apply (h w (by simp))

/-- No write adds more than one holder. -/
theorem holders_apply_le : k.holders (db.apply w) ≤ k.holders db + 1 := by
  by_cases h : k.res ∈ w.footprint
  · cases w with
    | insertUser u =>
        cases k with
        | wallet => exact Nat.le_succ _
        | account => exact filter_insert_le u
    | insertWallet x =>
        cases k with
        | wallet => exact filter_insert_le x
        | account => exact Nat.le_succ _
    | _ => cases k <;> simp_all [Write.footprint, res]
  · rw [holders_apply h]
    exact Nat.le_succ _

end Slot

/-! ## Who can fill a slot -/

section filling

variable [Runtime] {k : Slot} {t : Request} {db : Db} {ws : List Write}

/-- A call that does not want the value does not touch it. -/
theorem Legal.apart (h : Legal t db ws) (ht : ¬k.Wanted t) : ∀ w ∈ ws, k.res ∉ w.footprint := by
  have hbook : ∀ w : Write, (∀ u, w ≠ .insertUser u) → (∀ x, w ≠ .insertWallet x) →
      k.res ∉ w.footprint := by
    intro w hu hx hmem
    cases w with
    | insertUser u => exact hu u rfl
    | insertWallet x => exact hx x rfl
    | _ => cases k <;> simp [Write.footprint, Slot.res] at hmem
  cases t with
  | register data =>
      obtain ⟨u, -, hemail, -, -, rfl⟩ := h
      intro w hw hmem
      rw [List.mem_singleton.mp hw] at hmem
      cases k with
      | wallet => simp [Write.footprint, Slot.res] at hmem
      | account email =>
          have he : email = u.email := by simpa [Write.footprint, Slot.res] using hmem
          exact ht (hemail.symm.trans he.symm)
  | createWallet ownerId data =>
      obtain ⟨x, howner, hcur, -, -, -, -, rfl⟩ := h
      intro w hw hmem
      rw [List.mem_singleton.mp hw] at hmem
      cases k with
      | wallet ownerId' currency =>
          have he : ownerId' = x.userId ∧ currency = x.currency := by
            simpa [Write.footprint, Slot.res] using hmem
          exact ht ⟨howner.symm.trans he.1.symm, hcur.symm.trans he.2.symm⟩
      | account => simp [Write.footprint, Slot.res] at hmem
  | publish | handleEvent | analyticsConsumer =>
      intro w hw
      refine hbook w (fun u he => ?_) (fun x he => ?_)
      · rw [he] at hw
        exact Area.noConfusion (h _ hw)
      · rw [he] at hw
        exact Area.noConfusion (h _ hw)
  | deposit | transfer | withdraw | getBalance | listTransactions | reconcile =>
      obtain ⟨mv, m, -, -, -, rfl⟩ := h
      intro w hw
      refine hbook w (fun u he => ?_) (fun x he => ?_)
      · rw [he] at hw
        simp [Movement.writes, Movement.balances] at hw
      · rw [he] at hw
        simp [Movement.writes, Movement.balances] at hw

/-- A call that wants the value commits it only where it is free, as one row that then has it. -/
theorem Legal.fills (h : Legal t db ws) (ht : k.Wanted t) :
    k.res.Absent db ∧ ¬k.res.Absent (db.applyAll ws) ∧ ∃ w, ws = [w] := by
  cases t with
  | register data =>
      cases k with
      | wallet => exact absurd ht id
      | account email =>
          obtain ⟨u, -, hemail, hid, hfree, rfl⟩ := h
          have he : u.email = email := hemail.trans ht
          subst he
          refine ⟨hfree, fun habs => ?_, _, rfl⟩
          have hnone : (db.users.insert u).rows.find? _ = none := habs
          rw [Table.rows_insert hid, List.find?_eq_none] at hnone
          exact absurd (hnone u (by simp)) (by simp)
  | createWallet ownerId data =>
      cases k with
      | wallet ownerId' currency =>
          obtain ⟨x, howner, hcur, -, -, hid, hfree, rfl⟩ := h
          have ho : x.userId = ownerId' := howner.trans ht.1
          have hc : x.currency = currency := hcur.trans ht.2
          subst ho hc
          refine ⟨hfree, fun habs => ?_, _, rfl⟩
          have hnone : (db.wallets.insert x).rows.find? _ = none := habs
          rw [Table.rows_insert hid, List.find?_eq_none] at hnone
          exact absurd (hnone x (by simp)) (by simp)
      | account => exact absurd ht id
  | _ => cases k <;> exact absurd ht id

/-- **Every slot has one holder at most**, after a legal commit if before it. -/
theorem Legal.holders (h : Legal t db ws) (hone : k.holders db ≤ 1) :
    k.holders (db.applyAll ws) ≤ 1 := by
  by_cases ht : k.Wanted t
  · obtain ⟨hfree, -, w, rfl⟩ := h.fills ht
    have hle : k.holders (db.apply w) ≤ k.holders db + 1 := Slot.holders_apply_le
    rw [Slot.holders_eq_zero.mpr hfree] at hle
    exact hle
  · rw [Slot.holders_applyAll (h.apart ht)]
    exact hone

variable {db₀ : Db} {s : LedgerStore} {m n : Nat}

/-- **A filled slot has been filled** by a call that wanted it. -/
theorem Settled.filled (h : Settled db₀ s) (hfree : k.res.Absent db₀) (hn : n ≤ s.commits.length)
    (hfull : ¬k.res.Absent (s.past engine db₀ n)) :
    ∃ m c, m < n ∧ s.commits[m]? = some c ∧ k.Wanted c.tag := by
  induction n with
  | zero => exact absurd hfree hfull
  | succ n ih =>
      obtain ⟨c, hc⟩ : ∃ c, s.commits[n]? = some c := ⟨_, List.getElem?_eq_getElem (by omega)⟩
      by_cases hwant : k.Wanted c.tag
      · exact ⟨n, c, Nat.lt_succ_self n, hc, hwant⟩
      · -- that commit has left the slot alone
        have hsame : k.holders ((s.past engine db₀ n).applyAll c.writes)
            = k.holders (s.past engine db₀ n) :=
          Slot.holders_applyAll ((h.legal hc).apart hwant)
        rw [← past_succ hc] at hsame
        have hfull' : ¬k.res.Absent (s.past engine db₀ n) := by
          rwa [← Slot.holders_eq_zero, ← hsame, Slot.holders_eq_zero]
        obtain ⟨m, c', hm, hrest⟩ := ih (by omega) hfull'
        exact ⟨m, c', by omega, hrest⟩

/-- What is there stays there. -/
theorem Settled.present (h : Settled db₀ s) (hmn : m ≤ n) {r : Res}
    (hr : ¬r.Absent (s.past engine db₀ m)) : ¬r.Absent (s.past engine db₀ n) := by
  intro habs
  rw [(h.chain hmn).eq] at habs
  exact hr habs.of_applyAll

/-- **No slot is filled twice.** -/
theorem Settled.filled_once (h : Settled db₀ s) {c c' : LedgerCommit} (hc : s.commits[m]? = some c)
    (hc' : s.commits[n]? = some c') (ht : k.Wanted c.tag) (ht' : k.Wanted c'.tag) : m = n := by
  -- the later one would have met the slot filled
  have hlate : ∀ {m n : Nat} {c c' : LedgerCommit}, s.commits[m]? = some c
    → s.commits[n]? = some c' →
      k.Wanted c.tag → k.Wanted c'.tag → ¬m < n := by
    intro m n c c' hc hc' ht ht' hlt
    have hfull := ((h.legal hc).fills ht).2.1
    rw [← past_succ hc] at hfull
    exact h.present hlt hfull ((h.legal hc').fills ht').1
  have h₁ := hlate hc hc' ht ht'
  have h₂ := hlate hc' hc ht' ht
  omega

end filling

/-! ## The course of a call -/

/-- An INSERT whose value is free where it is executed, and whose columns fit. -/
def Clear (o : LedgerObs) : Prop :=
  match o.stmt with
  | .insertWallet ownerId currency =>
      currency.length ≤ 3 ∧ (Slot.wallet ownerId currency).res.Absent o.db
  | .insertUser name email passwordHash =>
      (name.length ≤ 255 ∧ email.length ≤ 255 ∧ passwordHash.length ≤ 255)
        ∧ (Slot.account email).res.Absent o.db
  | _ => True

theorem Clear.plain {o : LedgerObs} (hw : ∀ u c, o.stmt ≠ .insertWallet u c)
    (hu : ∀ n e p, o.stmt ≠ .insertUser n e p) : Clear o := by
  unfold Clear
  split
  · rename_i h
    exact absurd h (hw _ _)
  · rename_i h
    exact absurd h (hu _ _ _)
  · trivial

/-- Nothing but the slot can go wrong: the server does not fail, the drawn id is new, and the
owner of a new wallet exists. -/
def Unhindered (o : LedgerObs) : Prop :=
  o.inp.fault = none ∧
    match o.stmt with
    | .insertWallet ownerId _ =>
        o.db.wallets.get o.inp.uuid = none ∧ (o.db.users.get ownerId).isSome = true
    | .insertUser _ _ _ => o.db.users.get o.inp.uuid = none
    | _ => True

instance (o : LedgerObs) : Decidable (Unhindered o) := by
  unfold Unhindered
  cases o.stmt <;> (dsimp only; infer_instance)

/-- The ways a call that wants a slot can end, by the statements it has executed. -/
inductive Course {β : Type} (k : Slot) (os : List LedgerObs) : Except Exn β → Prop where
  /-- The look-up met the slot filled. -/
  | found {o : LedgerObs} (mem : o ∈ os) (full : ¬k.res.Absent o.db) (clear : ∀ o ∈ os, Clear o)
      (quiet : ∀ o ∈ os, o.stmt ≠ .commit) : Course k os (.error k.conflict)
  /-- The INSERT failed, before the `try` around the commit. -/
  | clashed {o : LedgerObs} {e : DbError} (mem : o ∈ os) (unclear : ¬Clear o)
      (quiet : ∀ o ∈ os, o.stmt ≠ .commit) : Course k os (.error (.db e))
  /-- The row is committed, and read back from wherever it is still there. -/
  | made {os₁ os₂ : List LedgerObs} {d : LedgerObs} {w : Write} {row : Res} {r : Except Exn β}
      (split : os = os₁ ++ d :: os₂) (commit : d.stmt = .commit) (fault : d.inp.fault = none)
      (buffered : engine.buffered [] os₁ = [w]) (lands : ∀ db : Db, ¬row.Absent (db.apply w))
      (clear : ∀ o ∈ os, Clear o) (back : ∃ o ∈ os₂, ¬row.Absent o.db → ∃ a, r = .ok a) :
      Course k os r

section course

variable {β γ : Type} {k : Slot} {i : Sid} {t : Request} {os : List LedgerObs} {ws ws' : List Write}

/-- Statements that neither commit nor insert anything may come before and after. -/
theorem Course.extend {r : Except Exn β} (h : Course k os r) (pre post : List LedgerObs)
    (hpre : engine.buffered [] pre = []) (hpre' : ∀ o ∈ pre, Clear o ∧ o.stmt ≠ .commit)
    (hpost : ∀ o ∈ post, Clear o ∧ o.stmt ≠ .commit) : Course k (pre ++ os ++ post) r := by
  have hall : ∀ {P : LedgerObs → Prop}, (∀ o ∈ os, P o) → (∀ o ∈ pre, P o) → (∀ o ∈ post, P o) →
      ∀ o ∈ pre ++ os ++ post, P o := by
    intro P h₁ h₂ h₃ o ho
    rcases List.mem_append.mp ho with ho | ho
    · rcases List.mem_append.mp ho with ho | ho
      · exact h₂ o ho
      · exact h₁ o ho
    · exact h₃ o ho
  have hmem : ∀ {o : LedgerObs}, o ∈ os → o ∈ pre ++ os ++ post := fun ho => by simp [ho]
  cases h with
  | found mem full clear quiet =>
      exact .found (hmem mem) full (hall clear (fun o ho => (hpre' o ho).1)
        (fun o ho => (hpost o ho).1))
        (hall quiet (fun o ho => (hpre' o ho).2) (fun o ho => (hpost o ho).2))
  | clashed mem unclear quiet =>
      exact .clashed (hmem mem) unclear
        (hall quiet (fun o ho => (hpre' o ho).2) (fun o ho => (hpost o ho).2))
  | made split commit fault buffered lands clear back =>
      rename_i os₁ os₂ d w row
      obtain ⟨o, ho, hback⟩ := back
      have hsplit : pre ++ os ++ post = (pre ++ os₁) ++ d :: (os₂ ++ post) := by simp [split]
      refine .made hsplit commit fault ?_ lands
        (hall clear (fun o ho => (hpre' o ho).1) (fun o ho => (hpost o ho).1))
        ⟨o, List.mem_append_left _ ho, hback⟩
      rw [Engine.buffered_append, hpre]
      exact buffered

theorem Course.map {r : Except Exn β} (h : Course k os r) (f : β → γ) : Course k os (r.map f) := by
  cases h with
  | found mem full clear quiet => exact .found mem full clear quiet
  | clashed mem unclear quiet => exact .clashed mem unclear quiet
  | made split commit fault buffered lands clear back =>
      obtain ⟨o, ho, hback⟩ := back
      refine .made split commit fault buffered lands clear ⟨o, ho, fun hrow => ?_⟩
      obtain ⟨a, rfl⟩ := hback hrow
      exact ⟨f a, rfl⟩

/-- A call that returns has committed. -/
theorem Course.commits {a : β} (h : Course k os (.ok a)) : ∃ o ∈ os, o.stmt = .commit := by
  cases h with
  | made split commit _ _ _ _ _ => exact ⟨_, by rw [split]; simp, commit⟩

/-! ### One statement -/

/-- An INSERT goes through, or is refused. -/
theorem insert_ended {q : Stmt} {check : Db → Inp → Option DbError} {locks : Inp → List Res}
    {taken : Db → Inp → Bool} {w : Inp → Write} {a : Inp → q.Ans}
    (hq : ∀ inp i db o, run q inp i db o
      = some (inserts inp o (check db inp) (locks inp) (taken db inp) (w inp) (a inp) o))
    {r : Except Exn q.Ans} (h : Trail engine i t (query q) ws os (ofExcept r) ws') :
    ∃ o : LedgerObs, os = [o] ∧ o.stmt = q ∧ (o.inp.fault = none →
      (check (o.db.applyAll ws) o.inp = none ∧ taken (o.db.applyAll ws) o.inp = false
          ∧ r = .ok (a o.inp) ∧ ws' = ws ++ [w o.inp])
        ∨ (¬(check (o.db.applyAll ws) o.inp = none ∧ taken (o.db.applyAll ws) o.inp = false)
          ∧ (∃ e, r = .error (.db e)) ∧ ws' = [])) := by
  have hw : ∀ inp i db o, run q inp i db o = some (writes inp o (check db inp) (locks inp)
      (if taken db inp then some .integrity else none) (w inp) (a inp) o) := hq
  obtain ⟨o, rfl, hstmt, ⟨-, hc, hcl, hr, hws⟩ | ⟨hno, he, hws⟩⟩ := writes_ended hw h
  · refine ⟨o, rfl, hstmt, fun _ => .inl ⟨hc, ?_, hr, hws⟩⟩
    by_contra ht
    rw [if_pos (by simpa using ht)] at hcl
    exact absurd hcl (by simp)
  · refine ⟨o, rfl, hstmt, fun hf => .inr ⟨fun hgood => hno ⟨hf, hgood.1, ?_⟩, he, hws⟩⟩
    rw [hgood.2]
    rfl

/-! ### The row -/

/-- What a repository's `create` leaves: the row in the session's buffer, or an INSERT that was
not clear. -/
def Created (key : β → Res) (os : List LedgerObs) (ws : List Write) (r : Except Exn β) : Prop :=
  (∃ a w, r = .ok a ∧ ws = [w] ∧ (∀ db : Db, ¬(key a).Absent (db.apply w)) ∧ ∀ o ∈ os, Clear o)
    ∨ (∃ e, r = .error (.db e)) ∧ ∃ o ∈ os, ¬Clear o

/-- Reading a row back: it keeps its key, unless it is gone. -/
def ReadsBack (key : β → Res) (back : β → Tx β) : Prop :=
  ∀ {i : Sid} {t : Request} {os : List LedgerObs} {ws ws' : List Write} (a : β) {r : Except Exn β},
    Trail engine i t (back a) ws os (ofExcept r) ws' →
    ∃ o : LedgerObs, os = [o] ∧ Clear o ∧ o.stmt ≠ .commit ∧ (o.inp.fault = none →
      ¬(key a).Absent (o.db.applyAll ws) → ∃ b, r = .ok b ∧ key b = key a ∧ ws' = ws)

theorem create_ended {q : Stmt} {check : Db → Inp → Option DbError} {locks : Inp → List Res}
    {taken : Db → Inp → Bool} {w : Inp → Write} {a : Inp → q.Ans} {key : q.Ans → Res}
    {back : q.Ans → Tx q.Ans}
    (hq : ∀ inp i db o, run q inp i db o
      = some (inserts inp o (check db inp) (locks inp) (taken db inp) (w inp) (a inp) o))
    (hclear : ∀ o : LedgerObs, o.stmt = q → Unhindered o →
      (Clear o ↔ check o.db o.inp = none ∧ taken o.db o.inp = false))
    (hlands : ∀ inp (db : Db), ¬(key (a inp)).Absent (db.apply (w inp)))
    (hback : ReadsBack key back)
    (hcommit : q ≠ .commit) {r : Except Exn q.Ans}
    (h : Trail engine i t (query q >>= back) [] os (ofExcept r) ws') (hs : ∀ o ∈ os, Unhindered o) :
    (∀ o ∈ os, o.stmt ≠ .commit) ∧ Created key os ws' r := by
  rcases h.bind_ended with ⟨e, h₁, rfl⟩ | ⟨x, os₁, os₂, ws₁, rfl, h₁, h₂⟩
  · obtain ⟨o, rfl, hstmt, hins⟩ := insert_ended hq h₁
    have ho : Unhindered o := hs o (by simp)
    refine ⟨by simp [hstmt, hcommit], ?_⟩
    rcases hins ho.1 with ⟨-, -, hr, -⟩ | ⟨hno, he, -⟩
    · exact absurd hr (by simp)
    · exact .inr ⟨he, o, by simp, fun hc => hno ((hclear o hstmt ho).mp hc)⟩
  · obtain ⟨o, rfl, hstmt, hins⟩ := insert_ended hq h₁
    obtain ⟨o', rfl, hclear', hquiet', hread⟩ := hback x h₂
    have ho : Unhindered o := hs o (by simp)
    have ho' : Unhindered o' := hs o' (by simp)
    refine ⟨by simp [hstmt, hcommit, hquiet'], ?_⟩
    rcases hins ho.1 with ⟨hc, ht, hr, rfl⟩ | ⟨-, ⟨e, he⟩, -⟩
    · cases Except.ok.inj hr
      -- the session reads its own row
      obtain ⟨b, rfl, hkey, rfl⟩ := hread ho'.1 (hlands o.inp o'.db)
      refine .inl ⟨b, _, rfl, rfl, fun db => by rw [hkey]; exact hlands o.inp db, ?_⟩
      have hclear : Clear o := (hclear o hstmt ho).mpr ⟨hc, ht⟩
      simp [hclear, hclear']
    · exact absurd he (by simp)

/-- The row, its commit, and the read after it. -/
theorem install_ended {create : Tx β} {key : β → Res} {back : β → Tx β}
    {f : β → Except Exn Unit → Tx β}
    (hcreate : ∀ {os : List LedgerObs} {ws' : List Write} {r : Except Exn β},
      Trail engine i t create [] os (ofExcept r) ws' → (∀ o ∈ os, Unhindered o) →
      (∀ o ∈ os, o.stmt ≠ .commit) ∧ Created key os ws' r)
    (hback : ReadsBack key back) (hf : ∀ a, f a (.ok ()) = back a) {r : Except Exn β}
    (h : Trail engine i t (create >>= fun a => (query .commit).attempt >>= f a) [] os
      (ofExcept r) ws')
    (hs : ∀ o ∈ os, Unhindered o) : Course k os r := by
  rcases h.bind_ended with ⟨e, h₁, rfl⟩ | ⟨a, os₁, os₂, ws₁, rfl, h₁, h₂⟩
  · obtain ⟨hquiet, hmade⟩ := hcreate h₁ hs
    rcases hmade with ⟨_, _, hr, -⟩ | ⟨⟨e', he⟩, o, ho, hno⟩
    · exact absurd hr (by simp)
    · cases he
      exact .clashed ho hno hquiet
  · obtain ⟨-, hmade⟩ := hcreate h₁ (fun o ho => hs o (by simp [ho]))
    rcases hmade with ⟨a', w, hr, rfl, hlands, hclear⟩ | ⟨⟨e, he⟩, -⟩
    · cases Except.ok.inj hr
      rw [attempt_bind] at h₂
      obtain ⟨r', os₃, os₄, ws₂, rfl, h₃, h₄⟩ := h₂.handle_ended
      obtain ⟨d, rfl, hstmt, rfl, hfault⟩ := sealing_ended h₃
      have hd : Unhindered d := hs d (by simp)
      rcases hfault with ⟨x, hx, -⟩ | ⟨-, rfl⟩
      · exact absurd (hx.symm.trans hd.1) (by simp)
      rw [hf] at h₄
      obtain ⟨o, rfl, hclear', -, hread⟩ := hback a h₄
      have hdclear : Clear d := .plain (by simp [hstmt]) (by simp [hstmt])
      refine .made rfl hstmt hd.1 h₁.buffered hlands ?_ ⟨o, by simp, fun hrow => ?_⟩
      · intro x hx
        rcases List.mem_append.mp hx with hx | hx
        · exact hclear x hx
        · rcases List.mem_pair.mp hx with rfl | rfl
          · exact hdclear
          · exact hclear'
      · obtain ⟨b, rfl, -, -⟩ := hread (hs o (by simp)).1 hrow
        exact ⟨b, rfl⟩
    · exact absurd he (by simp)

/-! ### The two services -/

theorem readsBack_user : ReadsBack (fun u : User => .user u.id)
    (fun u => query (.refreshUser u.id)) := by
  intro i t os ws ws' u r h
  obtain ⟨o, rfl, hstmt, hread⟩ := refresh_ended (f := fun db => db.users.get u.id)
    (fun _ _ _ _ => rfl) h
  refine ⟨o, rfl, .plain (by simp [hstmt]) (by simp [hstmt]), by simp [hstmt], fun hf hrow => ?_⟩
  rcases hread with ⟨-, x, hx, rfl, rfl⟩ | ⟨hno, -⟩
  · exact ⟨x, rfl, congrArg Res.user (Table.key_of_get hx), rfl⟩
  · exact absurd ⟨hf, Option.isSome_iff_ne_none.mpr hrow⟩ hno

theorem readsBack_wallet :
    ReadsBack (fun w : Wallet => .wallet w.id) (fun w => query (.refreshWallet w.id)) := by
  intro i t os ws ws' x r h
  obtain ⟨o, rfl, hstmt, hread⟩ := refresh_ended (f := fun db => db.wallets.get x.id)
    (fun _ _ _ _ => rfl) h
  refine ⟨o, rfl, .plain (by simp [hstmt]) (by simp [hstmt]), by simp [hstmt], fun hf hrow => ?_⟩
  rcases hread with ⟨-, y, hy, rfl, rfl⟩ | ⟨hno, -⟩
  · exact ⟨y, rfl, congrArg Res.wallet (Table.key_of_get hy), rfl⟩
  · exact absurd ⟨hf, Option.isSome_iff_ne_none.mpr hrow⟩ hno

/-- An inserted row is there, the new one or an older one under its id. -/
theorem present_insert {α κ : Type} {key : α → κ} [DecidableEq κ] (tbl : Table α κ key) (a : α) :
    (tbl.insert a).get (key a) ≠ none := by
  cases h : tbl.get (key a) with
  | none => simp [Table.get_insert_self h]
  | some b => simp [Table.get_insert_of_some h]

/-- A look-up that finds the slot filled ends the call. -/
theorem look_ended {ρ : Type} {q : Stmt} {look : Db → q.Ans} {full : q.Ans → Bool}
    {rest : Tx ρ} (hq : ∀ inp i db o, run q inp i db o = some (reads inp o (look db)))
    (hclear : ∀ o : LedgerObs, o.stmt = q → Clear o) (hcommit : q ≠ .commit)
    (hfull : ∀ db, full (look db) = true → ¬k.res.Absent db) {r : Except Exn ρ}
    (h : Trail engine i t
      (query q >>= fun x => raiseIf (full x = true) k.conflict >>= fun _ => rest) [] os
      (ofExcept r) ws')
    (hs : ∀ o ∈ os, Unhindered o)
    (hrest : ∀ {os : List LedgerObs}, Trail engine i t rest [] os (ofExcept r) ws' →
      (∀ o ∈ os, Unhindered o) → Course k os r) : Course k os r := by
  rcases h.bind_ended with ⟨e, h₁, rfl⟩ | ⟨x, os₁, os₂, ws₁, rfl, h₁, h₂⟩
  · obtain ⟨o, rfl, -, ⟨f, hf, -⟩ | ⟨-, hr, -⟩⟩ := read_ended hq h₁
    · exact absurd (hf.symm.trans (hs o (by simp)).1) (by simp)
    · exact absurd hr (by simp)
  · obtain ⟨o, rfl, hstmt, ⟨f, hf, -⟩ | ⟨-, hx, rfl⟩⟩ := read_ended hq h₁
    · exact absurd (hf.symm.trans (hs o (by simp)).1) (by simp)
    · cases Except.ok.inj hx
      rcases raiseIf_ended h₂ with ⟨hfound, rfl, rfl, -⟩ | ⟨-, h₃⟩
      · refine .found (o := o) (by simp) (hfull o.db hfound) ?_ ?_
        · simp [hclear o hstmt]
        · simp [hstmt, hcommit]
      · have hcourse := hrest h₃ (fun o' ho' => hs o' (by simp [ho']))
        have hext := hcourse.extend [o] [] h₁.buffered (by simp [hclear o hstmt, hstmt, hcommit])
          (by simp)
        simpa using hext

/-- The account a registration inserts. -/
theorem createUser_ended {name email hash : String} {r : Except Exn User}
    (h : Trail engine i t (UserRepository.create name email hash) [] os (ofExcept r) ws')
    (hs : ∀ o ∈ os, Unhindered o) :
    (∀ o ∈ os, o.stmt ≠ .commit) ∧ Created (fun u : User => .user u.id) os ws' r := by
  refine create_ended (q := .insertUser name email hash) (fun _ _ _ _ => rfl)
    (fun o ho hun => ?clear) (fun inp db => ?lands) readsBack_user (by simp) h hs
  case lands => exact present_insert db.users ⟨inp.uuid, name, email, hash⟩
  obtain ⟨-, hid⟩ := hun
  rw [ho] at hid
  have hid : o.db.users.get o.inp.uuid = none := hid
  unfold Clear
  rw [ho]
  simp [checkUser, firstError_eq_none, hid, Slot.res, Res.Absent]

theorem register_course [Runtime] {data : UserCreate} {r : Except Exn User}
    (h : Trail engine i t (UserService.register data) [] os (ofExcept r) ws')
    (hs : ∀ o ∈ os, Unhindered o) : Course (.account data.email) os r := by
  have hlook : ∀ inp i db o, run (.selectUserByEmail data.email) inp i db o
      = some (reads inp o (db.userByEmail data.email)) := fun _ _ _ _ => rfl
  refine look_ended (k := .account data.email) hlook
    (fun o ho => .plain (by simp [ho]) (by simp [ho])) (by simp) (fun db hfound habs => ?_) h hs
    (fun hrest hs => ?_)
  · have hnone : db.userByEmail data.email = none := habs
    rw [hnone] at hfound
    exact absurd hfound (by simp)
  · -- the salt of the hash
    rcases hrest.bind_ended with ⟨e, h₁, rfl⟩ | ⟨salt, os₁, os₂, ws₁, rfl, h₁, h₂⟩
    · obtain ⟨inp, db, aux, n, eff, -, hrun, hr, -⟩ := h₁.perform_ended
      cases hrun
      exact absurd hr (by simp)
    · obtain ⟨inp, db, aux, n, eff, rfl, hrun, -, rfl⟩ := h₁.perform_ended
      cases hrun
      have hcourse : Course (.account data.email) os₂ r :=
        install_ended createUser_ended readsBack_user (fun _ => rfl) h₂
          (fun o ho => hs o (by simp [ho]))
      have hext := hcourse.extend _ [] h₁.buffered
        (by simpa using .plain (by simp) (by simp)) (by simp)
      simpa using hext

/-- The wallet a call inserts. -/
theorem createRow_ended {ownerId : Uuid} {currency : String} {r : Except Exn Wallet}
    (h : Trail engine i t (WalletRepository.create ownerId currency) [] os (ofExcept r) ws')
    (hs : ∀ o ∈ os, Unhindered o) :
    (∀ o ∈ os, o.stmt ≠ .commit) ∧ Created (fun w : Wallet => .wallet w.id) os ws' r := by
  refine create_ended (q := .insertWallet ownerId currency) (fun _ _ _ _ => rfl)
    (fun o ho hun => ?clear) (fun inp db => ?lands) readsBack_wallet (by simp) h hs
  case lands => exact present_insert db.wallets ⟨inp.uuid, ownerId, currency, 0, 0,
    inp.now, inp.now⟩
  obtain ⟨-, hid⟩ := hun
  rw [ho] at hid
  obtain ⟨hid, howner⟩ : o.db.wallets.get o.inp.uuid = none
    ∧ (o.db.users.get ownerId).isSome = true := hid
  unfold Clear
  rw [ho]
  simp [checkWallet, firstError_eq_none, hid, howner, Slot.res, Res.Absent]

theorem createWallet_course [Runtime] {ownerId : Uuid} {data : WalletCreate} {r : Except Exn Wallet}
    (h : Trail engine i t (WalletService.createWallet ownerId data) [] os (ofExcept r) ws')
    (hs : ∀ o ∈ os, Unhindered o) : Course (.wallet ownerId (upper data.currency)) os r := by
  have hlook : ∀ inp i db o, run
    (.selectWalletByUserAndCurrency ownerId (upper data.currency)) inp i db o
      = some (reads inp o (db.walletByUserAndCurrency ownerId (upper data.currency))) :=
        fun _ _ _ _ => rfl
  refine look_ended (k := .wallet ownerId (upper data.currency)) hlook
    (fun o ho => .plain (by simp [ho]) (by simp [ho])) (by simp) (fun db hfound habs => ?_) h hs
    (fun hrest hs => install_ended createRow_ended readsBack_wallet (fun _ => rfl) hrest hs)
  have hnone : db.walletByUserAndCurrency ownerId (upper data.currency) = none := habs
  rw [hnone] at hfound
  exact absurd hfound (by simp)

end course

/-! ## Every run -/

section runs

variable [Runtime] {k : Slot} {t : Request} {db₀ : Db} {w : LedgerWorld} {i : Sid}
    {r : Except Exn Reply}

/-- A session that has ended has gone one of the three ways. -/
theorem ended_course (h : ReachableFrom db₀ w) (ht : k.Wanted t) (hs : ended w i = some (t, r))
    (hun : ∀ o ∈ w.store.script i, Unhindered o) : Course k (w.store.script i) r := by
  -- the program is a service under `get_db`
  have hsession : ∀ {β : Type} {p : Tx β} {f : β → Reply}, t.program = withSession (f <$> p) →
      t.next = none →
      (∀ {os : List LedgerObs} {ws : List Write} {r : Except Exn β},
        Trail engine i t p [] os (ofExcept r) ws → (∀ o ∈ os, Unhindered o) → Course k os r) →
      Course k (w.store.script i) r := by
    intro β p f hprog hnext hp
    obtain ⟨ws, htrail⟩ := ended_trail h hs hnext
    rw [hprog] at htrail
    obtain ⟨os, o, ws₁, hos, hclose, hinner⟩ := withSession_ended htrail
    obtain ⟨r', hservice, rfl⟩ := hinner.map_ended
    have hcourse := hp hservice (fun o' ho' => hun o' (by rw [hos]; simp [ho']))
    have hlast : ∀ o' ∈ [o], Clear o' ∧ o'.stmt ≠ .commit := by
      intro o' ho'
      rw [List.mem_singleton.mp ho']
      exact ⟨.plain (by simp [hclose]) (by simp [hclose]), by simp [hclose]⟩
    have hext := (hcourse.extend [] [o] rfl (by simp) hlast).map f
    rw [hos]
    simpa using hext
  cases t with
  | register data =>
      cases k with
      | wallet => exact absurd ht id
      | account email =>
          have he : data.email = email := ht
          subst he
          exact hsession rfl rfl register_course
  | createWallet ownerId data =>
      cases k with
      | wallet ownerId' currency =>
          obtain ⟨rfl, rfl⟩ : ownerId = ownerId' ∧ upper data.currency = currency := ht
          exact hsession rfl rfl createWallet_course
      | account => exact absurd ht id
  | _ => cases k <;> exact absurd ht id

/-- A call that has committed its row has returned it, and its commit has a place in the history. -/
theorem Course.recorded (h : ReachableFrom db₀ w) (hs : ended w i = some (t, r))
    (hc : Course k (w.store.script i) r)
    (hcommit : ∃ o ∈ w.store.script i, o.stmt = .commit) :
    (∃ a, r = .ok a) ∧ ∃ (n : Nat) (ws : List Write), w.store.commits[n]? = some ⟨i, t, ws⟩ := by
  obtain ⟨o, ho, hstmt⟩ := hcommit
  cases hc with
  | found mem full clear quiet => exact absurd hstmt (quiet o ho)
  | clashed mem unclear quiet => exact absurd hstmt (quiet o ho)
  | made split commit fault buffered lands clear back =>
      rename_i os₁ os₂ d x row
      have hmem : d ∈ w.store.script i := by
        rw [split]
        simp
      obtain ⟨p, hsess⟩ := ended_sess hs
      have htag : d.tag = t := (h.signed.tags i t p hsess).2 d (mem_script.mp hmem).1
        (mem_script.mp hmem).2
      obtain ⟨hrec, hlate⟩ := commit_sealed h split commit fault (by rw [buffered]; simp)
      rw [buffered, htag] at hrec
      refine ⟨?_, d.clock, [x], hrec⟩
      -- the row is read back from a state after the commit
      obtain ⟨o', ho', hback⟩ := back
      refine hback ?_
      have hset := reachable_settled h
      have hseen := (h.past.2 o'
        (mem_script.mp (by rw [split]; simp [ho'] : o' ∈ w.store.script i)).1).2
      have hland : ¬row.Absent (w.store.past engine db₀ (d.clock + 1)) := by
        rw [past_succ hrec]
        exact lands _
      rw [hseen]
      exact hset.present (hlate o' ho') hland

/-- The value of a slot has been decided as it should be: one row at most, one success at most,
everybody else told so, and a winner when all are done. -/
structure Slot.Decided (k : Slot) (w : LedgerWorld) : Prop where
  /-- No two rows have one value. -/
  unique : ∀ k' : Slot, k'.holders w.store.db ≤ 1
  /-- A call that has finished has succeeded, or raised the error for a value that is taken. -/
  answered : ∀ i t r, k.Wanted t → ended w i = some (t, r) → (∃ a, r = .ok a)
    ∨ r = .error k.conflict
  /-- Only one of them succeeds. -/
  once : ∀ i j t t' a a', k.Wanted t → k.Wanted t' → ended w i = some (t, .ok a) →
    ended w j = some (t', .ok a') → i = j
  /-- When every call has finished, one of them has succeeded. -/
  won : (∃ i, k.Called w i) → (∀ i, k.Called w i → ∃ x, ended w i = some x) →
    ∃ i t a, k.Wanted t ∧ ended w i = some (t, .ok a)

/-- A session keeps its request. -/
theorem Slot.Called.wanted (h : ReachableFrom db₀ w) (hc : k.Called w i)
    (hs : ended w i = some (t, r)) :
    k.Wanted t := by
  obtain ⟨p, hsess⟩ := ended_sess hs
  rcases hc with ⟨t', p', hsess', ht⟩ | ⟨o, ho, rfl, ht⟩
  · cases Option.some.inj (hsess.symm.trans hsess')
    exact ht
  · rw [← (h.signed.tags _ t p hsess).2 o ho rfl]
    exact ht

/-- **Two calls never both get the value, and it is free only if nobody has got it; but what the
others are told depends on their INSERTs.** In a state in which no server has failed on these
calls, the slot is decided as it should be if and only if no finished call has executed its INSERT
where the value was taken, or did not fit its column. -/
theorem reachable_decided (db₀ : Db) (w : LedgerWorld) (h : ReachableFrom db₀ w) (k : Slot)
    (hunique : ∀ k' : Slot, k'.holders db₀ ≤ 1) (hfree : k.res.Absent db₀)
    (hun : ∀ o ∈ w.store.trace, k.Wanted o.tag → Unhindered o) :
    k.Decided w ↔ ∀ i t r, k.Wanted t → ended w i = some (t, r)
      → ∀ o ∈ w.store.script i, Clear o := by
  have hset := reachable_settled h
  have hcourse : ∀ {i t r}, k.Wanted t → ended w i = some (t, r)
      → Course k (w.store.script i) r := by
    intro i t r ht hs
    obtain ⟨p, hsess⟩ := ended_sess hs
    refine ended_course h ht hs (fun o ho => ?_)
    obtain ⟨hmem, hsid⟩ := mem_script.mp ho
    exact hun o hmem (by rw [(h.signed.tags i t p hsess).2 o hmem hsid]; exact ht)
  constructor
  · intro hd i t r ht hs
    have hanswered := hd.answered i t r ht hs
    cases hcourse ht hs with
    | found _ _ clear _ => exact clear
    | made _ _ _ _ _ clear _ => exact clear
    | clashed _ _ _ =>
        rcases hanswered with ⟨a, ha⟩ | he
        · exact absurd ha (by simp)
        · cases k <;> exact absurd he (by simp [Slot.conflict])
  · intro hclear
    refine ⟨?_, fun i t r ht hs => ?_, fun i j t t' a a' ht ht' hs hs' => ?_, ?_⟩
    · exact hset.history.induct (P := fun d => ∀ k' : Slot, k'.holders d ≤ 1) hunique
        (fun _ _ _ hl hone k' => hl.holders (hone k'))
    · cases hcourse ht hs with
      | found => exact .inr rfl
      | clashed mem unclear _ => exact absurd (hclear i t _ ht hs _ mem) unclear
      | made split commit _ _ _ _ _ =>
          exact .inl ((hcourse ht hs).recorded h hs ⟨_, by rw [split]; simp, commit⟩).1
    · -- both have committed, so it is one commit
      obtain ⟨-, n, ws, hc⟩ := (hcourse ht hs).recorded h hs (hcourse ht hs).commits
      obtain ⟨-, n', ws', hc'⟩ := (hcourse ht' hs').recorded h hs' (hcourse ht' hs').commits
      have hn : n = n' := hset.filled_once hc hc' ht ht'
      subst hn
      rw [hc] at hc'
      injection hc' with hc'
      exact congrArg Commit.sid hc'
    · rintro ⟨i, hi⟩ hall
      obtain ⟨⟨t, r⟩, hs⟩ := hall i hi
      have ht := hi.wanted h hs
      cases hcourse ht hs with
      | clashed mem unclear _ => exact absurd (hclear i t _ ht hs _ mem) unclear
      | made split commit _ _ _ _ _ =>
          obtain ⟨⟨a, rfl⟩, -⟩ := (hcourse ht hs).recorded h hs ⟨_, by rw [split]; simp, commit⟩
          exact ⟨i, t, a, ht, hs⟩
      | found mem full _ _ =>
          -- whoever filled the slot has finished, too, and has committed
          obtain ⟨hclock, hseen⟩ := h.past.2 _ (mem_script.mp mem).1
          rw [hseen] at full
          obtain ⟨m, c, -, hc, hwant⟩ := hset.filled hfree hclock full
          obtain ⟨pre, d, post, hsplit, hsid, htag, hcommit, -, -⟩ := commit_marked h hc
          have hd : d ∈ w.store.trace := by rw [hsplit]; simp
          obtain ⟨⟨t', r'⟩, hs'⟩ := hall c.sid (.inr ⟨d, hd, hsid, by rw [htag]; exact hwant⟩)
          have ht' : k.Wanted t' := by
            obtain ⟨p, hsess⟩ := ended_sess hs'
            rw [← (h.signed.tags _ t' p hsess).2 d hd hsid, htag]
            exact hwant
          obtain ⟨⟨a, rfl⟩, -⟩ := (hcourse ht' hs').recorded h hs'
            ⟨d, mem_script.mpr ⟨hd, hsid⟩, hcommit⟩
          exact ⟨c.sid, t', a, ht', hs'⟩

omit [Runtime] in
theorem holders_empty (k : Slot) : k.holders .empty ≤ 1 := by
  cases k <;> exact Nat.zero_le _

/-- Ann asks for a wallet in dollars, and again when she has it. -/
def askedTwice : List LedgerAction :=
  accounts ++ [.spawn (.createWallet 12 ⟨"usd", by decide⟩)] ++ advance 4 6 50
    ++ [.spawn (.createWallet 12 ⟨"Usd", by decide⟩)] ++ advance 5 2 60

omit [Runtime] in
theorem askedTwice_decided : ∃ w, (@ReachableFrom plainRuntime .empty w
    ∧ (∀ o ∈ w.store.trace, Unhindered o)
    ∧ ended w 5 = some (.createWallet 12 ⟨"Usd", by decide⟩, .error (.walletAlreadyExists "USD")))
    ∧ (@Slot.Decided plainRuntime (.wallet 12 "USD") w
      ↔ ∀ i t r, @Slot.Wanted plainRuntime (.wallet 12 "USD") t → ended w i = some (t, r) →
        ∀ o ∈ w.store.script i, Clear o) := by
  obtain ⟨w, hr, hw⟩ := exists_runPlain .empty askedTwice (fun w =>
      (w.store.trace.all (fun o => decide (Unhindered o)), ended w 5))
    (v := (true, some (.createWallet 12 ⟨"Usd", by decide⟩, .error (.walletAlreadyExists "USD"))))
    (by decide +kernel)
  have hun : ∀ o ∈ w.store.trace, Unhindered o := fun o ho =>
    of_decide_eq_true (List.all_eq_true.mp (congrArg Prod.fst hw) o ho)
  exact ⟨w, ⟨hr, hun, congrArg Prod.snd hw⟩,
    @reachable_decided plainRuntime .empty w hr (.wallet 12 "USD") holders_empty rfl
      (fun o ho _ => hun o ho)⟩

/-- Both calls look before either inserts; the INSERT of the second waits for the first. The same
with two registrations. -/
def rush : List LedgerAction :=
  accounts ++ [.spawn (.createWallet 12 ⟨"usd", by decide⟩),
    .spawn (.createWallet 12 ⟨"Usd", by decide⟩)]
    ++ advance 4 1 50 ++ advance 5 1 60 ++ advance 4 5 51 ++ advance 5 2 61
    ++ [.spawn (.register ⟨"Cat", "cat@example.com", "password"⟩),
      .spawn (.register ⟨"Cat", "cat@example.com", "password"⟩)]
    ++ advance 6 1 70 ++ advance 7 1 80 ++ advance 6 6 71 ++ advance 7 3 81

omit [Runtime] in
/-- The second of each is told `IntegrityError`. -/
theorem rush_undecided : ∃ w, @ReachableFrom plainRuntime .empty w
    ∧ (∀ o ∈ w.store.trace, Unhindered o)
    ∧ ended w 5 = some (.createWallet 12 ⟨"Usd", by decide⟩, .error (.db .integrity))
    ∧ ended w 7 = some (.register ⟨"Cat", "cat@example.com", "password"⟩, .error (.db .integrity))
    ∧ ¬@Slot.Decided plainRuntime (.wallet 12 "USD") w
    ∧ ¬@Slot.Decided plainRuntime (.account "cat@example.com") w := by
  obtain ⟨w, hr, hw⟩ := exists_runPlain .empty rush (fun w =>
      (w.store.trace.all (fun o => decide (Unhindered o)),
        decide (ended w 5 = some (.createWallet 12 ⟨"Usd", by decide⟩, .error (.db .integrity))),
        decide (ended w 7
          = some (.register ⟨"Cat", "cat@example.com", "password"⟩, .error (.db .integrity)))))
    (v := (true, true, true)) (by decide +kernel)
  have hun : ∀ o ∈ w.store.trace, Unhindered o := fun o ho =>
    of_decide_eq_true (List.all_eq_true.mp (congrArg Prod.fst hw) o ho)
  have hwallet := of_decide_eq_true (congrArg (fun v => v.2.1) hw)
  have haccount := of_decide_eq_true (congrArg (fun v => v.2.2) hw)
  have hdollars : @Slot.Wanted plainRuntime (.wallet 12 "USD")
      (.createWallet 12 ⟨"Usd", by decide⟩) :=
    ⟨rfl, by decide⟩
  have hcat : @Slot.Wanted plainRuntime (.account "cat@example.com")
      (.register ⟨"Cat", "cat@example.com", "password"⟩) := rfl
  refine ⟨w, hr, hun, hwallet, haccount, fun hd => ?_, fun hd => ?_⟩
  · rcases @Slot.Decided.answered plainRuntime _ _ hd 5 _ _ hdollars hwallet with ⟨a, ha⟩ | he
    · exact absurd ha (by simp)
    · exact absurd he (by simp [Slot.conflict])
  · rcases @Slot.Decided.answered plainRuntime _ _ hd 7 _ _ hcat haccount with ⟨a, ha⟩ | he
    · exact absurd ha (by simp)
    · exact absurd he (by simp [Slot.conflict])

end runs

end WalletLedger
