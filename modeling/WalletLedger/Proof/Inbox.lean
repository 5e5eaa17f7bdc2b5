import WalletLedger.Proof.Ledger
import WalletLedger.Spec.Rollup

/-!
# The inbox

`handle_event` looks an event up in `processed_events`, files it, adds it to the
rollup and commits. The shape of that transaction is the same under every
contract: five statements, each of which either moves it one stage on or raises,
and an exception of any of them ends it. `triple_handleEvent` walks through it
once, for whatever the stages are taken to say, and `triple_guardedRound` through the
consumer's loop around it, and around what becomes of JSON that is no event.
-/

namespace WalletLedger

open Isolation Prog AnalyticsService

/-! ## Its statements -/

/-- The key of the inbox a statement files under. -/
def Stmt.files : Stmt → Option (String × Uuid)
  | .insertProcessed consumer id => some (consumer, id)
  | _ => none

section statements

variable {i : Sid} {t : Request} {q : Stmt} {inp : Inp} {s s' : LedgerStore} {a : q.Ans}

/-- A statement loses no row. -/
theorem exec_grows {r : Except Exn q.Ans} (hx : exec engine i t q inp s = some (r, s')) :
    s.db.Grows s'.db := by
  obtain ⟨e, -, -, -, ho⟩ := exec_outcome hx
  cases ho with
  | stay _ db => rw [db]; exact .refl _
  | abort _ db => rw [db]; exact .refl _
  | commit _ db => rw [db]; exact .applyAll _ _

/-- A read leaves everything of the session as it was. -/
theorem exec_reads {g : Db → q.Ans} (hrun : ∀ db o, run q inp i db o = some (reads inp o (g db)))
    (hx : exec engine i t q inp s = some (.ok a, s')) :
    a = g (s.db.applyAll (s.pending i)) ∧ s'.db = s.db ∧ s'.commits = s.commits
      ∧ s'.pending i = s.pending i ∧ ∀ r, (r, i) ∈ s'.locks ↔ (r, i) ∈ s.locks := by
  obtain ⟨e, he, hr, -, ho⟩ := exec_outcome hx
  have he : run q inp i (s.db.applyAll (s.pending i)) s.aux = some e := he
  rw [hrun] at he
  cases he
  obtain ⟨-, ha, heq⟩ := reads_ok hr.symm
  rw [heq] at ho
  cases ho with
  | stay _ db commits pending locks =>
      exact ⟨ha, db, commits, by rw [pending, List.append_nil], fun r => by rw [locks]; simp⟩
  | commit ctl => exact absurd ctl (by simp)
  | abort ctl => exact absurd ctl (by simp)

/-- A change of rows is buffered, under its locks. -/
theorem exec_writes {check clash : Option DbError} {locks : List Res} {w : Write} {b : q.Ans}
    (hrun : run q inp i (s.db.applyAll (s.pending i)) s.aux
      = some (writes inp s.aux check locks clash w b s.aux))
    (hx : exec engine i t q inp s = some (.ok a, s')) :
    clash = none ∧ s'.db = s.db ∧ s'.commits = s.commits ∧ s'.pending i = s.pending i ++ [w]
      ∧ ∀ r, (r, i) ∈ s'.locks ↔ (r, i) ∈ s.locks ∨ r ∈ locks := by
  obtain ⟨e, he, hr, -, ho⟩ := exec_outcome hx
  have he : run q inp i (s.db.applyAll (s.pending i)) s.aux = some e := he
  rw [hrun] at he
  cases he
  obtain ⟨-, hclash, -, heq⟩ := writes_ok hr.symm
  rw [heq] at ho
  cases ho with
  | stay _ db commits pending held => exact ⟨hclash, db, commits, pending, held⟩
  | commit ctl => exact absurd ctl (by simp)
  | abort ctl => exact absurd ctl (by simp)

/-- A closed session has nothing buffered. -/
theorem exec_close {r : Except Exn Unit} (hx : exec engine i t .close inp s = some (r, s')) :
    s'.pending i = [] := by
  obtain ⟨e, he, -, -, ho⟩ := exec_outcome hx
  cases he
  cases ho with
  | stay ctl => exact absurd ctl (by simp)
  | commit ctl => exact absurd ctl (by simp)
  | abort _ _ _ idle => exact idle.pending

/-- A poll that finds nothing leaves the group alone; one that finds a record moves the
member's position past it. -/
theorem runPoll_cases {o : Outside} {e : Effect Write Res Outside Exn Polled}
    (h : runPoll inp i o = some e) :
    (e.aux = o ∧ (e.ans = .ok .nothing ∨ ∃ c, e.ans = .ok (.error c)))
      ∨ ∃ p v, inp.fetch = .next p ∧ o.owner p = some i ∧ (o.partitions p)[o.position p]? = some v
        ∧ e.ans = .ok (.record p (o.position p) v)
        ∧ e.aux = { o with position := upd o.position p (o.position p + 1) } := by
  unfold runPoll at h
  cases hf : inp.fetch with
  | nothing => rw [hf] at h; cases h; exact .inl ⟨rfl, .inl rfl⟩
  | error c => rw [hf] at h; cases h; exact .inl ⟨rfl, .inr ⟨c, rfl⟩⟩
  | next p =>
      rw [hf] at h
      dsimp only at h
      by_cases hown : o.owner p = some i
      · rw [if_pos hown] at h
        cases hv : (o.partitions p)[o.position p]? with
        | none => rw [hv] at h; exact absurd h (by simp)
        | some v => rw [hv] at h; cases h; exact .inr ⟨p, v, rfl, hown, hv, rfl, rfl⟩
      · rw [if_neg hown] at h
        exact absurd h (by simp)

end statements

/-! ## Its shape -/

section walk

variable {C : Contract Db Write Res Outside Stmt Inp Exn Request Reply} {i : Sid} {t : Request}
  {β γ : Type} {A D : LedgerStore → Prop}

/-- Go on after a value; an exception has nothing to add to `D`. -/
theorem triple_onward (hC : C.Preorder) (hD : Stable engine C i D) {P : β → LedgerStore → Prop}
    {P' : γ → LedgerStore → Prop} {p : Tx β} {f : β → Tx γ}
    (hp : Triple engine C i t A p (Ends P D))
    (hf : ∀ a, Triple engine C i t (P a) (f a) (Ends P' D)) :
    Triple engine C i t A (p >>= f) (Ends P' D) :=
  .bind hC hp hf (fun _ => .raise hD (fun _ _ h => h))

/-- The same after a value and after an exception. -/
theorem Ends.either {r : Except Exn β} {s : LedgerStore} (h : Ends (fun _ => D) D r s) : D s := by
  cases r with
  | ok a => exact h
  | error e => exact h

/-- **The handler's transaction**, stage by stage: `A₀` before it, `A₁` once the event is known
to be new, `A₂` once it is filed, `A₃` with the row of the rollup, `A₄` once that is written,
and `D` after the commit or an exception. -/
theorem triple_handleEvent (hC : C.Preorder) (hD : Stable engine C i D) (payload : Payload)
    {A₀ : LedgerStore → Prop} (A₁ A₂ : LedgerStore → Prop)
    (A₃ : Option TransactionStat → LedgerStore → Prop) (A₄ : LedgerStore → Prop)
    (hA₁ : Stable engine C i A₁)
    (hlook : Triple engine C i t A₀ (query (.selectProcessed consumerName payload.transactionId))
      (Ends (fun row => if row.isSome then D else A₁) D))
    (hfile : Triple engine C i t A₁ (query (.insertProcessed consumerName payload.transactionId))
      (Ends (fun _ => A₂) D))
    (hstat : Triple engine C i t A₂ (query (.selectStat payload.currency payload.type))
      (Ends A₃ D))
    (hnew : Triple engine C i t (A₃ none)
      (query (.insertStat payload.currency payload.type (0 + 1) (0 + payload.amount)))
      (Ends (fun _ => A₄) D))
    (hold : ∀ stat, Triple engine C i t (A₃ (some stat))
      (query (.updateStat payload.currency payload.type (stat.count + 1)
        (stat.totalAmount + payload.amount))) (Ends (fun _ => A₄) D))
    (hcommit : Triple engine C i t A₄ (query .commit) (fun _ => D))
    (hrollback : Triple engine C i t D (query .rollback) (fun _ => D)) :
    Triple engine C i t A₀ (handleEvent payload) (fun _ => D) := by
  refine Triple.conseq (Q := Ends (fun _ => D) D) ?_ (fun _ _ h => h) (fun r _ h => Ends.either h)
  refine triple_onward hC hD (P := fun b => if b then D else A₁) ?_ (fun b => ?_)
  · refine triple_onward hC hD hlook (fun row => ?_)
    cases row with
    | some p => exact .ret hD (fun _ _ h => h)
    | none => exact .ret hA₁ (fun _ _ h => h)
  cases b with
  | true => exact .ret hD (fun _ _ h => h)
  | false =>
      refine triple_onward hC hD hfile (fun _ => triple_onward hC hD (P := fun _ => A₄)
        ?_ (fun _ => ?_))
      · refine triple_onward hC hD hstat (fun stat => ?_)
        cases stat with
        | none => exact hnew
        | some stat => exact hold stat
      · show Triple engine C i t A₄ ((query .commit).attempt >>= _) _
        rw [attempt_bind]
        refine .handle hC hcommit (fun r => ?_)
        cases r with
        | ok u => exact .ret hD (fun _ _ h => h)
        | error e =>
            cases e with
            | db e =>
                cases e with
                | integrity =>
                    -- a conflict counts as a duplicate: the handler returns without raising
                    refine .handle hC hrollback (fun r => ?_)
                    cases r with
                    | ok u => exact .ret hD (fun _ _ h => h)
                    | error e => exact .raise hD (fun _ _ h => h)
                | _ => exact .raise hD (fun _ _ h => h)
            | _ => exact .raise hD (fun _ _ h => h)

/-- **A round of the consumer**, stage by stage: `B` between two rounds, `F` after a poll, `D` after
the handler, `Z` once its session is closed. Whatever ends the process has nothing to add. -/
theorem triple_guardedRound (hC : C.Preorder) {B : LedgerStore → Prop} (hB : Stable engine C i B)
    (F : Polled → LedgerStore → Prop) (D Z : Nat → Nat → Value → LedgerStore → Prop)
    (hpoll : Triple engine C i t B (query .poll) (Ends F (fun _ => True)))
    (hnothing : ∀ s, F .nothing s → B s) (herror : ∀ c s, F (.error c) s → B s)
    (hhandle : ∀ p n payload, Triple engine C i t (F (.record p n (.event payload)))
      (handleEvent payload) (fun _ => D p n (.event payload)))
    (hforeign : ∀ p n txnId, Triple engine C i t (F (.record p n (.foreign txnId)))
      (handleForeign txnId) (fun _ => D p n (.foreign txnId)))
    (hclose : ∀ p n v, Triple engine C i t (D p n v) (query .close)
      (Ends (fun _ => Z p n v) (fun _ => True)))
    (hcommit : ∀ p n v, Triple engine C i t (Z p n v) (query (.commitOffset p n))
      (Ends (fun _ => B) (fun _ => True)))
    (hleave : Triple engine C i t (fun _ => True) (query .closeConsumer) (fun _ _ => True)) :
    Triple engine C i t B (AnalyticsConsumer.guarded AnalyticsConsumer.round)
      (Ends (fun _ => B) (fun _ => True)) := by
  have htrue : Stable engine C i (fun _ => True) := fun _ _ h _ => h
  have hrecord : ∀ p n v {handler : Tx Bool} {A : LedgerStore → Prop},
      Triple engine C i t A handler (fun _ => D p n v) →
      Triple engine C i t A (AnalyticsConsumer.handleRecord p n handler)
        (Ends (fun _ => B) (fun _ => True)) := by
    intro p n v handler A h
    show Triple engine C i t A (handler.attempt >>= _) _
    rw [attempt_bind]
    exact .handle hC h (fun _ => triple_onward hC htrue (hclose p n v) (fun _ => hcommit p n v))
  have hround : Triple engine C i t B AnalyticsConsumer.round
      (Ends (fun _ => B) (fun _ => True)) := by
    refine triple_onward hC htrue hpoll (fun msg => ?_)
    cases msg with
    | nothing =>
        exact Triple.conseq (.ret hB (fun _ _ h => h)) (fun s _ h => hnothing s h) (fun _ _ h => h)
    | error c =>
        exact Triple.conseq (.ret hB (fun _ _ h => h)) (fun s _ h => herror c s h) (fun _ _ h => h)
    | record p n value =>
        cases value with
        | malformed =>
            exact Triple.conseq (.raise htrue (fun _ _ _ => trivial)) (fun _ _ _ => trivial)
              (fun _ _ h => h)
        | foreign txnId => exact hrecord p n _ (hforeign p n txnId)
        | event payload => exact hrecord p n _ (hhandle p n payload)
  -- `finally: consumer.close()`
  refine .handle hC hround (fun r => ?_)
  cases r with
  | ok u => exact .ret hB (fun _ _ h => h)
  | error x =>
      refine .handle hC hleave (fun r => ?_)
      cases r with
      | ok u => exact .raise htrue (fun _ _ _ => trivial)
      | error y => exact .raise htrue (fun _ _ _ => trivial)

end walk

end WalletLedger
