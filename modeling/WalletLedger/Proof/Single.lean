import WalletLedger.App.System
import WalletLedger.Isolation.Alone
import WalletLedger.Isolation.Sequential
import WalletLedger.Spec.Movement

/-!
# Statements of a session that is alone

When no other session has a transaction open, a statement never waits, and what it
is answered is a matter of the database and the session's own buffer. One lemma for
each shape of statement, to run programs through from their first statement to
their last.
-/

namespace WalletLedger

open Isolation Prog

section single

variable {i : Sid} {t : Request} {inp : Inp} {ws : List Write} {s : LedgerStore} {q : Stmt}

/-- A statement that goes on with the transaction. -/
theorem solo_stay (h : Solo i ws s) {e : Effect Write Res Outside Exn q.Ans}
    (he : run q inp i (s.db.applyAll ws) s.aux = some e) (hc : e.ctl = .stay) :
    ∃ s', runAlone engine i t inp (query q) s = some (e.ans, s') ∧ Solo i (ws ++ e.writes) s'
      ∧ s'.db = s.db ∧ s'.aux = e.aux := by
  obtain ⟨s', hx, hrest⟩ := h.stay (E := engine) (t := t) he hc
  exact ⟨s', runAlone_perform.trans hx, hrest⟩

/-- A statement that ends the transaction without a commit. -/
theorem solo_abort (h : Solo i ws s) {e : Effect Write Res Outside Exn q.Ans}
    (he : run q inp i (s.db.applyAll ws) s.aux = some e) (hc : e.ctl = .abort) :
    ∃ s', runAlone engine i t inp (query q) s = some (e.ans, s') ∧ AtRest s'
      ∧ s'.db = s.db ∧ s'.aux = e.aux := by
  obtain ⟨s', hx, hrest⟩ := h.abort (E := engine) (t := t) he hc
  exact ⟨s', runAlone_perform.trans hx, hrest⟩

/-- A plain read. -/
theorem solo_reads (h : Solo i ws s) {a : q.Ans} (hf : inp.fault = none)
    (he : run q inp i (s.db.applyAll ws) s.aux = some (reads inp s.aux a)) :
    ∃ s', runAlone engine i t inp (query q) s = some (.ok a, s') ∧ Solo i ws s'
      ∧ s'.db = s.db ∧ s'.aux = s.aux := by
  have heff : reads inp s.aux a = { ans := .ok a, aux := s.aux } := by
    unfold reads
    rw [hf]
  rw [heff] at he
  obtain ⟨s', hx, hs, hrest⟩ := solo_stay (t := t) h he rfl
  rw [List.append_nil] at hs
  exact ⟨s', hx, hs, hrest⟩

/-- A change of rows that nothing speaks against. -/
theorem solo_writes (h : Solo i ws s) {check c : Option DbError} {locks : List Res} {w : Write}
    {a : q.Ans} {o' : Outside} (hf : inp.fault = none) (hc : check = none) (hcl : c = none)
    (he : run q inp i (s.db.applyAll ws) s.aux
      = some (writes inp s.aux check locks c w a o')) :
    ∃ s', runAlone engine i t inp (query q) s = some (.ok a, s') ∧ Solo i (ws ++ [w]) s'
      ∧ s'.db = s.db ∧ s'.aux = o' := by
  have heff : writes inp s.aux check locks c w a o'
      = { locks := locks, writes := [w], ans := .ok a, aux := o' } := by
    unfold writes
    rw [hf, hc, hcl]
  rw [heff] at he
  exact solo_stay h he rfl

/-- A change of rows whose values do not fit. -/
theorem solo_refused (h : Solo i ws s) {clash : Option DbError} {locks : List Res} {w : Write}
    {a : q.Ans} {o' : Outside} {x : DbError} (hf : inp.fault = none)
    (he : run q inp i (s.db.applyAll ws) s.aux
      = some (writes inp s.aux (some x) locks clash w a o')) :
    ∃ s', runAlone engine i t inp (query q) s = some (.error (.db x), s') ∧ AtRest s'
      ∧ s'.db = s.db ∧ s'.aux = s.aux := by
  have heff : writes inp s.aux (some x) locks clash w a o' = failed s.aux x [] := by
    unfold writes
    rw [hf]
  rw [heff] at he
  exact solo_abort h he rfl

/-- The commit. -/
theorem solo_commit (h : Solo i ws s) (hf : inp.fault = none) :
    ∃ s', runAlone engine i t inp (query .commit) s = some (.ok (), s') ∧ AtRest s'
      ∧ s'.db = s.db.applyAll ws ∧ s'.aux = s.aux := by
  have he : engine.run .commit inp i (engine.applyAll s.db ws) s.aux
      = some { ctl := .commit, ans := .ok (), aux := s.aux } := by
    show run .commit inp i (s.db.applyAll ws) s.aux = _
    unfold run
    rw [hf]
  obtain ⟨s', hx, hrest⟩ := h.commit (t := t) he rfl
  exact ⟨s', runAlone_perform.trans hx, hrest⟩

/-- The end of a session. -/
theorem solo_close (t : Request) (inp : Inp) (h : Solo i ws s) :
    ∃ s', runAlone engine i t inp (query .close) s = some (.ok (), s') ∧ AtRest s'
      ∧ s'.db = s.db ∧ s'.aux = s.aux :=
  solo_abort (q := .close) (e := { ctl := .abort, ans := .ok (), aux := s.aux }) h rfl rfl

/-- A call of the cache, whether it is carried out or raises. -/
theorem solo_cache (h : Solo i ws s) {a : q.Ans} {o' : Outside}
    (he : run q inp i (s.db.applyAll ws) s.aux = some (runCache inp s.aux o' a)) :
    ∃ r s', runAlone engine i t inp (query q) s = some (r, s') ∧ Solo i ws s' ∧ s'.db = s.db
      ∧ ((inp.cacheFault = none ∧ r = .ok a) ∨ (inp.cacheFault ≠ none ∧ r = .error .cache)) := by
  have hstay : (runCache inp s.aux o' a).ctl = .stay ∧ (runCache inp s.aux o' a).writes = []
      ∧ ((inp.cacheFault = none ∧ (runCache inp s.aux o' a).ans = .ok a)
        ∨ (inp.cacheFault ≠ none ∧ (runCache inp s.aux o' a).ans = .error .cache)) := by
    unfold runCache
    cases hf : inp.cacheFault with
    | none => exact ⟨rfl, rfl, .inl ⟨rfl, rfl⟩⟩
    | some b => exact ⟨rfl, rfl, .inr ⟨by simp, rfl⟩⟩
  obtain ⟨s', hx, hs, hdb, -⟩ := solo_stay (t := t) h he hstay.1
  rw [hstay.2.1, List.append_nil] at hs
  exact ⟨_, s', hx, hs, hdb, hstay.2.2⟩

/-- A request that runs alone ends as its body does. -/
theorem solo_withSession {α : Type} {p : Tx α} {r : Except Exn α} {s₁ : LedgerStore}
    (hp : runAlone engine i t inp p s = some (r, s₁)) (h : Solo i ws s₁) :
    ∃ s', runAlone engine i t inp (withSession p) s = some (r, s') ∧ AtRest s'
      ∧ s'.db = s₁.db ∧ s'.aux = s₁.aux := by
  obtain ⟨s', hx, hrest⟩ := solo_close t inp h
  refine ⟨s', (runAlone_handle hp).trans ((runAlone_bind hx).trans ?_), hrest⟩
  cases r with
  | ok a => rfl
  | error e => rfl

end single

end WalletLedger
