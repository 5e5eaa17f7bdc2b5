import WalletLedger.Isolation.Trail
import WalletLedger.Proof.Contract

/-!
# Trails of the application

What the history of a run says about one session: the statements it has executed
are a path through its program. The lemmas here are about the pieces all programs
are made of, the session around a request and a plain read.
-/

namespace WalletLedger

open Isolation Prog

section pieces

variable {α : Type} {i : Sid} {t : Request} {ws ws' : List Write} {os : List LedgerObs}

/-- A request closes its session last. -/
theorem withSession_ended {p : Tx α} {r : Except Exn α}
    (h : Trail engine i t (withSession p) ws os (ofExcept r) ws') :
    ∃ os' o ws₁, os = os' ++ [o] ∧ o.stmt = .close
      ∧ Trail engine i t p ws os' (ofExcept r) ws₁ := by
  obtain ⟨r', os₁, os₂, ws₁, rfl, h₁, h₂⟩ := h.handle_ended
  rcases h₂.bind_ended with ⟨e, h₂, -⟩ | ⟨u, os₃, os₄, ws₂, rfl, h₃, h₄⟩
  · -- `close` does not fail
    obtain ⟨inp, db, aux, n, eff, -, hrun, hans, -⟩ := h₂.perform_ended
    cases hrun
    exact absurd hans (by simp)
  · obtain ⟨inp, db, aux, n, eff, rfl, -, -, -⟩ := h₃.perform_ended
    obtain ⟨rfl, hr, rfl⟩ := h₄.ofExcept_inv
    rw [ofExcept_inj hr]
    exact ⟨os₁, _, ws₁, rfl, rfl, h₁⟩

/-- A plain read is answered from the state it meets, unless it fails. -/
theorem read_ended {q : Stmt} {a : Db → q.Ans} {r : Except Exn q.Ans}
    (hq : ∀ inp i db o, run q inp i db o = some (reads inp o (a db)))
    (h : Trail engine i t (query q) ws os (ofExcept r) ws') :
    ∃ o : LedgerObs, os = [o] ∧ o.stmt = q
      ∧ ((∃ f, o.inp.fault = some f ∧ r = .error (.db f) ∧ ws' = [])
        ∨ (o.inp.fault = none ∧ r = .ok (a (o.db.applyAll ws)) ∧ ws' = ws)) := by
  obtain ⟨inp, db, aux, n, eff, rfl, hrun, hans, hws⟩ := h.perform_ended
  have heff : eff = reads inp aux (a (db.applyAll ws)) :=
    (Option.some.inj ((hq inp i (db.applyAll ws) aux).symm.trans hrun)).symm
  refine ⟨_, rfl, rfl, ?_⟩
  rcases reads_cases inp aux (a (db.applyAll ws)) with ⟨f, hf, he⟩ | ⟨hf, he⟩
  · rw [he] at heff
    subst heff
    exact .inl ⟨f, hf, hans, hws⟩
  · rw [he] at heff
    subst heff
    refine .inr ⟨hf, hans, hws.trans ?_⟩
    simp [Effect.buffer]

/-- `SELECT ... FOR UPDATE` reads the row of the state it meets, unless it fails. -/
theorem locked_ended {id : Uuid} {r : Except Exn (Option Wallet)}
    (h : Trail engine i t (WalletRepository.getWithLock id) ws os (ofExcept r) ws') :
    ∃ o : LedgerObs, os = [o] ∧ o.stmt = .selectWalletForUpdate id
      ∧ ((o.inp.fault ≠ none ∧ (∃ e, r = .error e) ∧ ws' = [])
        ∨ (o.inp.fault = none ∧ r = .ok ((o.db.applyAll ws).wallets.get id) ∧ ws' = ws)) := by
  obtain ⟨inp, db, aux, n, e, rfl, hrun, rfl, rfl⟩ := h.perform_ended
  refine ⟨_, rfl, rfl, ?_⟩
  have heff : readsLocked inp aux ((db.applyAll ws).wallets.get id) (.wallet id) = e :=
    Option.some.inj hrun
  subst heff
  unfold readsLocked
  cases hf : inp.fault with
  | some f => exact .inl ⟨by simp, ⟨.db f, rfl⟩, rfl⟩
  | none => exact .inr ⟨rfl, rfl, by simp [Effect.buffer]⟩

/-- A change of rows goes through, or it fails: because the environment wants it to, at a check, or
on the rows that are there. -/
theorem writes_ended {q : Stmt} {check clash : Db → Inp → Outside → Option DbError}
    {locks : Inp → List Res} {w : Inp → Outside → Write} {a : Inp → Outside → q.Ans}
    {o' : Outside → Outside}
    (hq : ∀ inp i db o, run q inp i db o
      = some (writes inp o (check db inp o) (locks inp) (clash db inp o) (w inp o)
        (a inp o) (o' o)))
    {r : Except Exn q.Ans} (h : Trail engine i t (query q) ws os (ofExcept r) ws') :
    ∃ o : LedgerObs, os = [o] ∧ o.stmt = q
      ∧ ((o.inp.fault = none ∧ check (o.db.applyAll ws) o.inp o.aux = none
          ∧ clash (o.db.applyAll ws) o.inp o.aux = none ∧ r = .ok (a o.inp o.aux)
          ∧ ws' = ws ++ [w o.inp o.aux])
        ∨ (¬(o.inp.fault = none ∧ check (o.db.applyAll ws) o.inp o.aux = none
            ∧ clash (o.db.applyAll ws) o.inp o.aux = none)
          ∧ (∃ e, r = .error (.db e)) ∧ ws' = [])) := by
  obtain ⟨inp, db, aux, n, e, rfl, hrun, rfl, rfl⟩ := h.perform_ended
  refine ⟨_, rfl, rfl, ?_⟩
  have heff := Option.some.inj ((hq inp i (db.applyAll ws) aux).symm.trans hrun)
  subst heff
  unfold writes
  show (inp.fault = none ∧ check (db.applyAll ws) inp aux = none
    ∧ clash (db.applyAll ws) inp aux = none ∧ _) ∨ _
  cases hf : inp.fault with
  | some f => exact .inr ⟨by simp, ⟨f, rfl⟩, rfl⟩
  | none =>
      cases hc : check (db.applyAll ws) inp aux with
      | some e => exact .inr ⟨by simp, ⟨e, rfl⟩, rfl⟩
      | none =>
          cases hcl : clash (db.applyAll ws) inp aux with
          | some e => exact .inr ⟨by simp, ⟨e, rfl⟩, rfl⟩
          | none => exact .inl ⟨rfl, rfl, rfl, rfl, rfl⟩

/-- A refresh finds its row, or fails. -/
theorem refresh_ended {q : Stmt} {f : Db → Option q.Ans}
    (hq : ∀ inp i db o, run q inp i db o = some (refreshes inp o (f db)))
    {r : Except Exn q.Ans} (h : Trail engine i t (query q) ws os (ofExcept r) ws') :
    ∃ o : LedgerObs, os = [o] ∧ o.stmt = q
      ∧ ((o.inp.fault = none ∧ ∃ a, f (o.db.applyAll ws) = some a ∧ r = .ok a ∧ ws' = ws)
        ∨ (¬(o.inp.fault = none ∧ (f (o.db.applyAll ws)).isSome = true)
          ∧ (∃ e, r = .error (.db e)) ∧ ws' = [])) := by
  obtain ⟨inp, db, aux, n, e, rfl, hrun, rfl, rfl⟩ := h.perform_ended
  refine ⟨_, rfl, rfl, ?_⟩
  have heff := Option.some.inj ((hq inp i (db.applyAll ws) aux).symm.trans hrun)
  subst heff
  unfold refreshes
  show (inp.fault = none ∧ ∃ a, f (db.applyAll ws) = some a ∧ _) ∨ _
  cases hf : inp.fault with
  | some e => exact .inr ⟨by simp, ⟨e, rfl⟩, rfl⟩
  | none =>
      cases hrow : f (db.applyAll ws) with
      | none => exact .inr ⟨by simp, ⟨.stale, rfl⟩, rfl⟩
      | some a => exact .inl ⟨rfl, a, rfl, rfl, by simp [Effect.buffer]⟩

/-- A plain read that is next, or has been executed with nothing buffered. -/
theorem read_inv {q : Stmt} {a : Db → q.Ans} {K : Except Exn q.Ans → Tx α} {p : Tx α}
    (hq : ∀ inp i db o, run q inp i db o = some (reads inp o (a db)))
    (h : Trail engine i t (.call q K) [] os p ws') :
    (os = [] ∧ p = .call q K ∧ ws' = [])
    ∨ ∃ (o : LedgerObs) (os' : List LedgerObs), os = o :: os' ∧ o.stmt = q
      ∧ ((∃ f, o.inp.fault = some f ∧ Trail engine i t (K (.error (.db f))) [] os' p ws')
        ∨ (o.inp.fault = none ∧ Trail engine i t (K (.ok (a o.db))) [] os' p ws')) := by
  rcases h.call_inv with hnext | ⟨inp, db, aux, n, e, os', rfl, hrun, hrest⟩
  · exact .inl hnext
  refine .inr ⟨_, os', rfl, rfl, ?_⟩
  have heff : e = reads inp aux (a db) := (Option.some.inj ((hq inp i db aux).symm.trans hrun)).symm
  rcases reads_cases inp aux (a db) with ⟨f, hf, he⟩ | ⟨hf, he⟩
  · rw [he] at heff
    subst heff
    exact .inl ⟨f, hf, hrest⟩
  · rw [he] at heff
    subst heff
    exact .inr ⟨hf, hrest⟩

/-- A commit leaves nothing buffered, whether it fails or not. -/
theorem sealing_ended {r : Except Exn Unit}
    (h : Trail engine i t (query .commit) ws os (ofExcept r) ws') :
    ∃ o : LedgerObs, os = [o] ∧ o.stmt = .commit ∧ ws' = []
      ∧ ((∃ f, o.inp.fault = some f ∧ r = .error (.db f)) ∨ (o.inp.fault = none ∧ r = .ok ())) := by
  obtain ⟨inp, db, aux, n, e, rfl, hrun, rfl, rfl⟩ := h.perform_ended
  cases hf : inp.fault with
  | some f =>
      have heff : run .commit inp i (db.applyAll ws) aux = some (failed aux f []) := by
        simp only [run, hf]
      cases Option.some.inj (heff.symm.trans hrun)
      exact ⟨_, rfl, rfl, rfl, .inl ⟨f, hf, rfl⟩⟩
  | none =>
      have heff : run .commit inp i (db.applyAll ws) aux
          = some { ctl := .commit, ans := .ok (), aux := aux } := by
        simp only [run, hf]
      cases Option.some.inj (heff.symm.trans hrun)
      exact ⟨_, rfl, rfl, rfl, .inr ⟨hf, rfl⟩⟩

/-- A call of the cache that is next, or has been executed. -/
theorem cache_inv {q : Stmt} {a : Outside → q.Ans} {f : Outside → Outside}
    {K : Except Exn q.Ans → Tx α} {p : Tx α}
    (hq : ∀ inp i db o, run q inp i db o = some (runCache inp o (f o) (a o)))
    (h : Trail engine i t (.call q K) [] os p ws') :
    (os = [] ∧ p = .call q K ∧ ws' = [])
    ∨ ∃ (o : LedgerObs) (os' : List LedgerObs), os = o :: os' ∧ o.stmt = q
      ∧ ((o.inp.cacheFault ≠ none ∧ Trail engine i t (K (.error .cache)) [] os' p ws')
        ∨ (o.inp.cacheFault = none ∧ Trail engine i t (K (.ok (a o.aux))) [] os' p ws')) := by
  rcases h.call_inv with hnext | ⟨inp, db, aux, n, e, os', rfl, hrun, hrest⟩
  · exact .inl hnext
  refine .inr ⟨_, os', rfl, rfl, ?_⟩
  have heff : e = runCache inp aux (f aux) (a aux) :=
    (Option.some.inj ((hq inp i db aux).symm.trans hrun)).symm
  subst heff
  unfold runCache at hrest
  cases hf : inp.cacheFault with
  | some b =>
      rw [hf] at hrest
      exact .inl ⟨by simp, hrest⟩
  | none =>
      rw [hf] at hrest
      exact .inr ⟨rfl, hrest⟩

/-- The way out of a request. -/
def closing (r : Except Exn Reply) : Tx Reply := do
  query .close
  ofExcept r

theorem closing_inv {r : Except Exn Reply} {p : Tx Reply}
    (h : Trail engine i t (closing r) [] os p ws') :
    ws' = [] ∧ ((os = [] ∧ p = closing r)
      ∨ ∃ o : LedgerObs, os = [o] ∧ o.stmt = .close ∧ p = ofExcept r) := by
  rcases h.call_inv with ⟨hos, hp, hws⟩ | ⟨inp, db, aux, n, e, os', rfl, hrun, hrest⟩
  · exact ⟨hws, .inl ⟨hos, hp⟩⟩
  · cases hrun
    obtain ⟨rfl, hp, hws⟩ := Trail.ofExcept_inv (r := r) hrest
    exact ⟨hws, .inr ⟨_, rfl, rfl, hp⟩⟩

/-- A check passes, or ends the program before its next statement. -/
theorem raiseIf_ended {c : Prop} [Decidable c] {e : Exn} {f : Unit → Tx α} {r : Except Exn α}
    (h : Trail engine i t (raiseIf c e >>= f) ws os (ofExcept r) ws') :
    (c ∧ os = [] ∧ r = .error e ∧ ws' = ws)
      ∨ (¬c ∧ Trail engine i t (f ()) ws os (ofExcept r) ws') := by
  unfold raiseIf at h
  by_cases hc : c
  · rw [if_pos hc] at h
    obtain ⟨rfl, hr, rfl⟩ := h.raise_inv
    exact .inl ⟨hc, rfl, ofExcept_inj hr, rfl⟩
  · rw [if_neg hc] at h
    exact .inr ⟨hc, h⟩

theorem raiseIf_ok {c : Prop} [Decidable c] {e : Exn} {f : Unit → Tx α} {b : α}
    (h : Trail engine i t (raiseIf c e >>= f) ws os (ofExcept (.ok b)) ws') :
    ¬c ∧ Trail engine i t (f ()) ws os (ofExcept (.ok b)) ws' := by
  rcases raiseIf_ended h with ⟨-, -, hr, -⟩ | hrest
  · exact absurd hr (by simp)
  · exact hrest

theorem outcome_ofExcept (r : Except Exn Reply) : outcome (ofExcept r) = some r := by
  cases r with
  | ok a => rfl
  | error e => rfl

/-- What a session that has ended looks like. -/
theorem ended_ofExcept {w : LedgerWorld} {i : Sid} {t : Request} {r : Except Exn Reply}
    (h : ended w i = some (t, r)) : w.sess i = some (t, ofExcept r) := by
  unfold ended at h
  obtain ⟨⟨t', p⟩, hsess, h⟩ := Option.bind_eq_some_iff.mp h
  obtain ⟨r', hout, he⟩ := Option.map_eq_some_iff.mp h
  cases he
  rw [hsess]
  cases p with
  | ret a => cases hout; rfl
  | raise e => cases hout; rfl
  | call q k => exact absurd hout (by simp [outcome])

end pieces

variable [Runtime]

/-- **A session that has ended has executed its program to the end.** -/
theorem ended_trail {db : Db} {w : LedgerWorld} (h : ReachableFrom db w) {i : Sid} {t : Request}
    {r : Except Exn Reply} (hs : ended w i = some (t, r)) (ht : t.next = none) :
    ∃ ws, Trail engine i t t.program [] (w.store.script i) (ofExcept r) ws :=
  ⟨_, h.trail.2 i t _ (ended_ofExcept hs) ht⟩

/-- Whatever a session has buffered or committed belongs to its areas. -/
theorem reachable_areas {db₀ : Db} {w : LedgerWorld} (h : ReachableFrom db₀ w) :
    (∀ i t p, w.sess i = some (t, p) → ∀ x ∈ w.store.pending i, x.area ∈ t.areas)
      ∧ ∀ c ∈ w.store.commits, ∀ x ∈ c.writes, x.area ∈ c.tag.areas := by
  refine (h.writes (P := fun (t : Request) (q : Stmt) => q.area ∈ t.areas)
    (W := fun (t : Request) (x : Write) => x.area ∈ t.areas)
    Request.program_keeps (fun t p hp => Request.next_keeps hp) ?_).2
  intro t q inp i db aux e hq he x hx
  rcases (run_within he).writes with h₀ | ⟨y, h₁, hy, -⟩
  · rw [h₀] at hx
    exact absurd hx (by simp)
  · rw [h₁, List.mem_singleton] at hx
    subst hx
    rw [Stmt.write_area hy]
    exact hq

/-- A commit has its place in the history, and whatever comes after it is later. -/
theorem commit_marked {db : Db} {w : LedgerWorld} (h : ReachableFrom db w) {n : Nat}
    {c : LedgerCommit} (hc : w.store.commits[n]? = some c) :
    ∃ pre d post, w.store.trace = pre ++ d :: post ∧ d.sid = c.sid ∧ d.tag = c.tag
      ∧ d.stmt = .commit ∧ d.clock ≤ n ∧ ∀ o ∈ post, n < o.clock := by
  induction h with
  | init => exact absurd hc (by simp [World.init, LedgerStore.start, Store.init])
  | tail hr hs ih =>
      rename_i w₁ w₂ a
      rcases step_cases hs with ⟨t, -, rfl⟩ | ⟨i, inp, t, q, k, r, s', -, -, hx, rfl⟩
        | ⟨i, inp, t, x, p, -, -, -, rfl⟩ | ⟨i, x, -, -, rfl⟩ | ⟨x, o, -, -, rfl⟩
      · exact ih hc
      · have hc : s'.commits[n]? = some c := hc
        have htrace : s'.trace = _ := exec_trace hx
        have hold : w₁.store.commits[n]? = some c → ∃ pre d post, s'.trace = pre ++ d :: post
            ∧ d.sid = c.sid ∧ d.tag = c.tag ∧ d.stmt = .commit ∧ d.clock ≤ n
            ∧ ∀ o ∈ post, n < o.clock := by
          intro hc₁
          obtain ⟨pre, d, post, hsplit, hsid, htag, hstmt, hclock, hlate⟩ := ih hc₁
          refine ⟨pre, d, post ++ [_], by rw [htrace, hsplit, List.append_assoc, List.cons_append],
            hsid, htag, hstmt, hclock, fun o ho => ?_⟩
          rcases List.mem_append.mp ho with ho | ho
          · exact hlate o ho
          · rw [List.mem_singleton.mp ho]
            exact (List.getElem?_eq_some_iff.mp hc₁).1
        by_cases hq : q = .commit
        · subst hq
          obtain ⟨l, hl, -, hnew⟩ := exec_history hx
          rw [hl] at hc
          by_cases hn : n < w₁.store.commits.length
          · rw [List.getElem?_append_left hn] at hc
            exact hold hc
          · -- the statement is the commit
            rw [List.getElem?_append_right (by omega)] at hc
            obtain ⟨hsid, htag⟩ := hnew c (List.mem_of_getElem? hc)
            exact ⟨_, _, [], htrace, hsid.symm, htag.symm, rfl, Nat.not_lt.mp hn, by simp⟩
        · obtain ⟨_, -, -, -, -, hsame, -⟩ := exec_quiet hx hq
          rw [hsame] at hc
          exact hold hc
      · exact ih hc
      · exact ih hc
      · exact ih hc

/-- A commit the server has carried out is in the history, with what the session had buffered, and
whatever comes after it is later. -/
theorem commit_sealed {db : Db} {w : LedgerWorld} (h : ReachableFrom db w) {i : Sid}
    {os os' : List LedgerObs} {d : LedgerObs} (hs : w.store.script i = os ++ d :: os')
    (hcommit : d.stmt = .commit) (hfault : d.inp.fault = none) (hws : engine.buffered [] os ≠ []) :
    w.store.commits[d.clock]? = some ⟨i, d.tag, engine.buffered [] os⟩
      ∧ ∀ o ∈ os', d.clock < o.clock := by
  obtain ⟨sid, tag, stmt, inp, db₁, aux, ok, n⟩ := d
  have hcommit : stmt = .commit := hcommit
  subst hcommit
  have hfault : inp.fault = none := hfault
  have hrun : run .commit inp i (db₁.applyAll (engine.buffered [] os)) aux
      = some { ctl := .commit, ans := .ok (), aux := aux } := by
    simp only [run, hfault]
  exact h.sealed hs hrun rfl hws

omit [Runtime] in
/-- The states of a run only grow. -/
theorem past_grows {s : LedgerStore} {db : Db} {m n : Nat} (hmn : m ≤ n) :
    (s.past engine db m).Grows (s.past engine db n) := by
  have hsplit : s.commits.take n = s.commits.take m ++ (s.commits.take n).drop m := by
    conv_lhs => rw [← List.take_append_drop m (s.commits.take n), List.take_take,
      Nat.min_eq_left hmn]
  unfold Store.past
  rw [hsplit, List.flatMap_append, Engine.applyAll_append]
  exact .applyAll _ _

/-- Every committed write set has its `commit` in the history. -/
theorem commit_script {db : Db} {w : LedgerWorld} (h : ReachableFrom db w) :
    ∀ c ∈ w.store.commits, ∃ o ∈ w.store.script c.sid, o.stmt = .commit := by
  intro c hc
  obtain ⟨n, hn⟩ := List.getElem?_of_mem hc
  obtain ⟨pre, d, post, hsplit, hsid, -, hstmt, -, -⟩ := commit_marked h hn
  exact ⟨d, mem_script.mpr ⟨by rw [hsplit]; simp, hsid⟩, hstmt⟩

end WalletLedger
