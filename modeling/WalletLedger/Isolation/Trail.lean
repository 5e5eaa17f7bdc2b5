import WalletLedger.Isolation.Runs

/-!
# What one session has been through

A contract says what a session may assume of the others. Some questions are not
about the others at all: what a session has done so far, given what it met. A
`Trail` is a session's own statements in order, each with the state it met and the
choices made for it, and with them everything the session knows: its answers and
its uncommitted writes are functions of the trail.

`Reachable.trail` says that the history of a run holds a trail for every session,
and the inversion lemmas take a trail apart along the program that left it.
-/

namespace Isolation

variable {Db Write Res Aux Stmt Inp Env ε Tag α β : Type} {Ans : Stmt → Type}

/-- The uncommitted writes after an effect. -/
def Effect.buffer (e : Effect Write Res Aux ε β) (ws : List Write) : List Write :=
  match e.ctl with
  | .stay => ws ++ e.writes
  | .commit => []
  | .abort => []

/-- Executing the statements of a list takes session `i` from one program and buffer to
another. -/
inductive Trail (E : Engine Db Write Res Aux Stmt Inp Env ε Ans) (i : Sid) (t : Tag) :
    Prog Stmt Ans ε α → List Write → List (Obs Db Aux Stmt Inp Tag) →
      Prog Stmt Ans ε α → List Write → Prop where
  | nil (p : Prog Stmt Ans ε α) (ws : List Write) : Trail E i t p ws [] p ws
  | cons {q : Stmt} {k : Except ε (Ans q) → Prog Stmt Ans ε α} {inp : Inp} {db : Db} {aux : Aux}
      {n : Nat} {e : Effect Write Res Aux ε (Ans q)} {os : List (Obs Db Aux Stmt Inp Tag)}
      {p : Prog Stmt Ans ε α} {ws ws' : List Write} :
      E.run q inp i (E.applyAll db ws) aux = some e → Trail E i t (k e.ans) (e.buffer ws) os p ws' →
        Trail E i t (.call q k) ws (⟨i, t, q, inp, db, aux, e.ans.isOk, n⟩ :: os) p ws'

namespace Trail

variable {E : Engine Db Write Res Aux Stmt Inp Env ε Ans} {i : Sid} {t : Tag}
  {p p' : Prog Stmt Ans ε α} {ws ws' : List Write} {os : List (Obs Db Aux Stmt Inp Tag)}

/-- One more statement at the end. -/
theorem snoc {q : Stmt} {k : Except ε (Ans q) → Prog Stmt Ans ε α} {inp : Inp} {db : Db} {aux : Aux}
    {e : Effect Write Res Aux ε (Ans q)} (h : Trail E i t p ws os (.call q k) ws')
    (he : E.run q inp i (E.applyAll db ws') aux = some e) (n : Nat) :
    Trail E i t p ws (os ++ [⟨i, t, q, inp, db, aux, e.ans.isOk, n⟩]) (k e.ans) (e.buffer ws') := by
  generalize hp : (Prog.call q k : Prog Stmt Ans ε α) = p' at h
  induction h with
  | nil p ws =>
      subst hp
      exact .cons he (.nil _ _)
  | cons hrun _ ih => exact .cons hrun (ih he hp)

/-! ## Taking a trail apart -/

/-- A program that has ended goes nowhere. -/
theorem ofExcept_inv {r : Except ε α} (h : Trail E i t (Prog.ofExcept r) ws os p' ws') :
    os = [] ∧ p' = Prog.ofExcept r ∧ ws' = ws := by
  cases r with
  | ok a => cases h; exact ⟨rfl, rfl, rfl⟩
  | error e => cases h; exact ⟨rfl, rfl, rfl⟩

theorem ret_inv {a : α} (h : Trail E i t (.ret a) ws os p' ws') :
    os = [] ∧ p' = .ret a ∧ ws' = ws := by
  cases h
  exact ⟨rfl, rfl, rfl⟩

theorem raise_inv {e : ε} (h : Trail E i t (.raise e) ws os p' ws') :
    os = [] ∧ p' = .raise e ∧ ws' = ws := by
  cases h
  exact ⟨rfl, rfl, rfl⟩

/-- A statement has not been executed yet, or it has. -/
theorem call_inv {q : Stmt} {k : Except ε (Ans q) → Prog Stmt Ans ε α}
    (h : Trail E i t (.call q k) ws os p' ws') :
    (os = [] ∧ p' = .call q k ∧ ws' = ws)
    ∨ ∃ inp db aux n e os', os = ⟨i, t, q, inp, db, aux, e.ans.isOk, n⟩ :: os'
        ∧ E.run q inp i (E.applyAll db ws) aux = some e
        ∧ Trail E i t (k e.ans) (e.buffer ws) os' p' ws' := by
  cases h with
  | nil => exact .inl ⟨rfl, rfl, rfl⟩
  | cons hrun h => exact .inr ⟨_, _, _, _, _, _, rfl, hrun, h⟩

/-- **A sequence is in its first part, or has left it behind.** -/
theorem handle_inv {p : Prog Stmt Ans ε β} {f : Except ε β → Prog Stmt Ans ε α}
    (h : Trail E i t (p.handle f) ws os p' ws') :
    (∃ q k, Trail E i t p ws os (.call q k) ws' ∧ p' = (Prog.call q k).handle f)
    ∨ ∃ r os₁ os₂ ws₁, os = os₁ ++ os₂ ∧ Trail E i t p ws os₁ (Prog.ofExcept r) ws₁
        ∧ Trail E i t (f r) ws₁ os₂ p' ws' := by
  induction p generalizing ws os with
  | ret a => exact .inr ⟨.ok a, [], os, ws, rfl, .nil _ _, h⟩
  | raise e => exact .inr ⟨.error e, [], os, ws, rfl, .nil _ _, h⟩
  | call q k ih =>
      rcases call_inv h with ⟨rfl, rfl, rfl⟩ | ⟨inp, db, aux, n, e, os', rfl, hrun, h⟩
      · exact .inl ⟨q, k, .nil _ _, rfl⟩
      · rcases ih e.ans h with ⟨q', k', h', rfl⟩ | ⟨r, os₁, os₂, ws₁, rfl, h₁, h₂⟩
        · exact .inl ⟨q', k', .cons hrun h', rfl⟩
        · exact .inr ⟨r, _ :: os₁, os₂, ws₁, rfl, .cons hrun h₁, h₂⟩

/-- A sequence that has ended has left both parts behind. -/
theorem handle_ended {p : Prog Stmt Ans ε β} {f : Except ε β → Prog Stmt Ans ε α} {r' : Except ε α}
    (h : Trail E i t (p.handle f) ws os (Prog.ofExcept r') ws') :
    ∃ r os₁ os₂ ws₁, os = os₁ ++ os₂ ∧ Trail E i t p ws os₁ (Prog.ofExcept r) ws₁
      ∧ Trail E i t (f r) ws₁ os₂ (Prog.ofExcept r') ws' := by
  rcases handle_inv h with ⟨q, k, -, hp⟩ | hdone
  · cases r' with
    | ok a => exact absurd hp (by simp [Prog.ofExcept])
    | error e => exact absurd hp (by simp [Prog.ofExcept])
  · exact hdone

/-- A statement of a program that has ended has been executed. -/
theorem call_ended {q : Stmt} {k : Except ε (Ans q) → Prog Stmt Ans ε α} {r' : Except ε α}
    (h : Trail E i t (.call q k) ws os (Prog.ofExcept r') ws') :
    ∃ inp db aux n e os', os = ⟨i, t, q, inp, db, aux, e.ans.isOk, n⟩ :: os'
      ∧ E.run q inp i (E.applyAll db ws) aux = some e
      ∧ Trail E i t (k e.ans) (e.buffer ws) os' (Prog.ofExcept r') ws' := by
  rcases call_inv h with ⟨-, hp, -⟩ | hdone
  · cases r' with
    | ok a => exact absurd hp (by simp [Prog.ofExcept])
    | error e => exact absurd hp (by simp [Prog.ofExcept])
  · exact hdone

/-- A single statement that has been executed. -/
theorem perform_ended {q : Stmt} {r' : Except ε (Ans q)}
    (h : Trail E i t (Prog.perform q) ws os (Prog.ofExcept r') ws') :
    ∃ inp db aux n e, os = [⟨i, t, q, inp, db, aux, e.ans.isOk, n⟩]
      ∧ E.run q inp i (E.applyAll db ws) aux = some e ∧ r' = e.ans ∧ ws' = e.buffer ws := by
  obtain ⟨inp, db, aux, n, e, os', rfl, hrun, h⟩ := call_ended h
  obtain ⟨rfl, hr, rfl⟩ := ofExcept_inv h
  exact ⟨inp, db, aux, n, e, rfl, hrun, Prog.ofExcept_inj hr, rfl⟩

/-- A single statement that is still to come. -/
theorem perform_ahead {q q' : Stmt} {k : Except ε (Ans q') → Prog Stmt Ans ε (Ans q)}
    (h : Trail E i t (Prog.perform q) ws os (.call q' k) ws') :
    os = [] ∧ .call q' k = Prog.perform q ∧ ws' = ws := by
  rcases call_inv h with hnone | ⟨inp, db, aux, n, e, os', -, -, hend⟩
  · exact hnone
  · obtain ⟨-, he, -⟩ := ofExcept_inv hend
    cases hans : e.ans with
    | ok a =>
        rw [hans] at he
        exact absurd he (by simp [Prog.ofExcept])
    | error x =>
        rw [hans] at he
        exact absurd he (by simp [Prog.ofExcept])

/-- A sequence that has ended: at an exception of its first part, or in its second. -/
theorem bind_ended {p : Prog Stmt Ans ε β} {f : β → Prog Stmt Ans ε α} {r' : Except ε α}
    (h : Trail E i t (p >>= f) ws os (Prog.ofExcept r') ws') :
    (∃ e, Trail E i t p ws os (Prog.ofExcept (.error e)) ws' ∧ r' = .error e)
    ∨ ∃ a os₁ os₂ ws₁, os = os₁ ++ os₂ ∧ Trail E i t p ws os₁ (Prog.ofExcept (.ok a)) ws₁
        ∧ Trail E i t (f a) ws₁ os₂ (Prog.ofExcept r') ws' := by
  obtain ⟨r, os₁, os₂, ws₁, rfl, h₁, h₂⟩ := handle_ended h
  cases r with
  | ok a => exact .inr ⟨a, os₁, os₂, ws₁, rfl, h₁, h₂⟩
  | error e =>
      obtain ⟨rfl, hr, rfl⟩ := raise_inv h₂
      have hr' : r' = .error e := Prog.ofExcept_inj hr
      exact .inl ⟨e, by rw [List.append_nil]; exact h₁, hr'⟩

/-- A program that raises does not return. -/
theorem raise_ok {e : ε} {b : α} (h : Trail E i t (.raise e) ws os (Prog.ofExcept (.ok b)) ws') :
    False := by
  obtain ⟨-, hr, -⟩ := h.raise_inv
  exact absurd hr (by simp [Prog.ofExcept])

/-- A sequence that has returned has returned from both parts. -/
theorem bind_ok {p : Prog Stmt Ans ε β} {f : β → Prog Stmt Ans ε α} {b : α}
    (h : Trail E i t (p >>= f) ws os (Prog.ofExcept (.ok b)) ws') :
    ∃ a os₁ os₂ ws₁, os = os₁ ++ os₂ ∧ Trail E i t p ws os₁ (Prog.ofExcept (.ok a)) ws₁
      ∧ Trail E i t (f a) ws₁ os₂ (Prog.ofExcept (.ok b)) ws' := by
  rcases bind_ended h with ⟨e, -, hr⟩ | hrest
  · exact absurd hr (by simp)
  · exact hrest

theorem map_ended {p : Prog Stmt Ans ε β} {f : β → α} {r' : Except ε α}
    (h : Trail E i t (f <$> p) ws os (Prog.ofExcept r') ws') :
    ∃ r, Trail E i t p ws os (Prog.ofExcept r) ws' ∧ r' = r.map f := by
  rcases bind_ended h with ⟨e, h', rfl⟩ | ⟨a, os₁, os₂, ws₁, rfl, h₁, h₂⟩
  · exact ⟨.error e, h', rfl⟩
  · obtain ⟨rfl, hr, rfl⟩ := ret_inv h₂
    have hr' : r' = .ok (f a) := Prog.ofExcept_inj hr
    exact ⟨.ok a, by rw [List.append_nil]; exact h₁, hr'⟩

/-- The statements of a trail are among those the program can issue. -/
theorem uses {P : Stmt → Prop} (h : Trail E i t p ws os p' ws') (hp : p.Uses P) :
    (∀ o ∈ os, P o.stmt) ∧ p'.Uses P := by
  induction h with
  | nil => exact ⟨by simp, hp⟩
  | cons _ _ ih =>
      obtain ⟨hos, hp'⟩ := ih (hp.2 _)
      refine ⟨fun o ho => ?_, hp'⟩
      rcases List.mem_cons.mp ho with rfl | ho
      · exact hp.1
      · exact hos o ho

/-- A trail is no longer than what its program can issue. -/
theorem length_le {n : Nat} (h : Trail E i t p ws os p' ws') (hp : p.AtMost n) : os.length ≤ n := by
  induction h generalizing n with
  | nil => exact Nat.zero_le n
  | cons _ _ ih =>
      have hrest := ih (hp.2 _)
      have hpos := hp.1
      rw [List.length_cons]
      omega

/-- What is left can issue that much less. -/
theorem atMost {n : Nat} (h : Trail E i t p ws os p' ws') (hp : p.AtMost n) :
    p'.AtMost (n - os.length) := by
  induction h generalizing n with
  | nil => exact hp
  | @cons q k inp db aux m e os p ws ws' _ _ ih =>
      rw [List.length_cons, Nat.add_comm, ← Nat.sub_sub]
      exact ih (hp.2 _)

/-- What is left after a statement with `P` in a program that seals it. -/
theorem seals {P Q : Stmt → Prop} (h : Trail E i t p ws os p' ws') (hp : p.Seals P Q)
    (ho : ∃ o ∈ os, P o.stmt) : p'.Uses Q := by
  induction h with
  | nil => exact absurd ho (by simp)
  | cons _ hrest ih =>
      obtain ⟨o, ho, hP⟩ := ho
      rcases List.mem_cons.mp ho with rfl | ho
      · exact (hrest.uses (hp.1 hP _)).2
      · exact ih (hp.2 _) ⟨o, ho, hP⟩

/-- A trail passes through the place between two parts of its statements. -/
theorem append_inv {os' : List (Obs Db Aux Stmt Inp Tag)}
    (h : Trail E i t p ws (os ++ os') p' ws') :
    ∃ p₁ ws₁, Trail E i t p ws os p₁ ws₁ ∧ Trail E i t p₁ ws₁ os' p' ws' := by
  induction os generalizing p ws with
  | nil => exact ⟨p, ws, .nil _ _, h⟩
  | cons o os ih =>
      cases h with
      | cons hrun h =>
          obtain ⟨p₁, ws₁, h₁, h₂⟩ := ih h
          exact ⟨p₁, ws₁, .cons hrun h₁, h₂⟩

/-- After a statement with `P` a program that seals it has issued only statements with `Q`. -/
theorem after_seal {P Q : Stmt → Prop} {d : Obs Db Aux Stmt Inp Tag}
    {os' : List (Obs Db Aux Stmt Inp Tag)} (h : Trail E i t p ws (os ++ d :: os') p' ws')
    (hp : p.Seals P Q) (hd : P d.stmt) : ∀ o ∈ os', Q o.stmt := by
  rw [List.append_cons] at h
  obtain ⟨p₁, ws₁, h₁, h₂⟩ := h.append_inv
  exact (h₂.uses (h₁.seals hp ⟨d, by simp, hd⟩)).1

end Trail

/-! ## What a session has buffered -/

/-- The uncommitted writes a list of statements leaves behind. -/
def Engine.buffered (E : Engine Db Write Res Aux Stmt Inp Env ε Ans) (ws : List Write) :
    List (Obs Db Aux Stmt Inp Tag) → List Write
  | [] => ws
  | o :: os =>
      match E.run o.stmt o.inp o.sid (E.applyAll o.db ws) o.aux with
      | some e => E.buffered (e.buffer ws) os
      | none => E.buffered ws os

theorem Engine.buffered_append (E : Engine Db Write Res Aux Stmt Inp Env ε Ans) (ws : List Write)
    (os os' : List (Obs Db Aux Stmt Inp Tag)) :
    E.buffered ws (os ++ os') = E.buffered (E.buffered ws os) os' := by
  induction os generalizing ws with
  | nil => rfl
  | cons o os ih =>
      rw [List.cons_append, Engine.buffered, Engine.buffered]
      cases E.run o.stmt o.inp o.sid (E.applyAll o.db ws) o.aux with
      | none => exact ih ws
      | some e => exact ih (e.buffer ws)

/-- A trail leaves what its statements leave. -/
theorem Trail.buffered {E : Engine Db Write Res Aux Stmt Inp Env ε Ans} {i : Sid} {t : Tag}
    {p p' : Prog Stmt Ans ε α} {ws ws' : List Write} {os : List (Obs Db Aux Stmt Inp Tag)}
    (h : Trail E i t p ws os p' ws') : E.buffered ws os = ws' := by
  induction h with
  | nil => rfl
  | cons hrun _ ih =>
      rw [Engine.buffered, hrun]
      exact ih

/-! ## The trails of a run -/

/-- The statements a session has executed. -/
def Store.script (s : Store Db Write Res Aux Stmt Inp Tag) (i : Sid) :
    List (Obs Db Aux Stmt Inp Tag) := s.trace.filter (fun o => decide (o.sid = i))

theorem mem_script {s : Store Db Write Res Aux Stmt Inp Tag} {i : Sid}
    {o : Obs Db Aux Stmt Inp Tag} : o ∈ s.script i ↔ o ∈ s.trace ∧ o.sid = i := by
  simp [Store.script]

variable [DecidableEq Res] {S : System Db Write Res Aux Stmt Inp Env ε Tag α Ans}
  {w : World Db Write Res Aux Stmt Inp ε Tag α Ans}

/-- A statement moves its own session along, and no other. -/
theorem exec_trail {E : Engine Db Write Res Aux Stmt Inp Env ε Ans} {i : Sid} {t : Tag} {q : Stmt}
    {inp : Inp} {r : Except ε (Ans q)} {s s' : Store Db Write Res Aux Stmt Inp Tag}
    (h : exec E i t q inp s = some (r, s')) :
    (∃ e, E.run q inp i (E.applyAll s.db (s.pending i)) s.aux = some e ∧ r = e.ans
      ∧ s'.script i = s.script i ++ [⟨i, t, q, inp, s.db, s.aux, e.ans.isOk, s.commits.length⟩]
      ∧ s'.pending i = e.buffer (s.pending i))
    ∧ ∀ j, j ≠ i → s'.script j = s.script j ∧ s'.pending j = s.pending j := by
  have htrace := exec_trace h
  obtain ⟨e, he, -, rfl, rfl⟩ := exec_cases h
  refine ⟨⟨e, he, rfl, ?_, ?_⟩, fun j hj => ⟨?_, ?_⟩⟩
  · rw [Store.script, htrace, List.filter_append]
    simp [Store.script]
  · unfold Store.settle Effect.buffer
    cases e.ctl <;> simp [Store.observe]
  · rw [Store.script, htrace, List.filter_append]
    simp [Store.script, hj.symm]
  · unfold Store.settle
    cases e.ctl <;> exact upd_ne _ _ hj

omit [DecidableEq Res] in
/-- A session that does not exist yet has executed nothing. -/
theorem Signed.script_nil (h : Signed w) {i : Sid} (hi : w.next ≤ i) : w.store.script i = [] := by
  rw [Store.script, List.filter_eq_nil_iff]
  intro o ho
  simpa using Nat.ne_of_lt (Nat.lt_of_lt_of_le (h.trace o ho) hi)

/-- **Every session that does not loop has left a trail from its first statement to
where it is now.** -/
theorem Reachable.trail {db : Db} {aux : Aux} (h : Reachable S (Store.init db aux) w) :
    (∀ i, w.next ≤ i → w.store.pending i = [])
    ∧ ∀ i t p, w.sess i = some (t, p) → S.again t = none →
        Trail S.toEngine i t (S.start t) [] (w.store.script i) p (w.store.pending i) := by
  induction h with
  | init => exact ⟨fun _ _ => rfl, fun i t p hp => absurd hp (by simp [World.init])⟩
  | tail hr hs ih =>
      rename_i w₁ w₂ a
      obtain ⟨hnone, htrail⟩ := ih
      have hsigned := hr.signed
      rcases step_cases hs with ⟨t, -, rfl⟩ | ⟨i, inp, t, q, k, r, s', -, hsess, hx, rfl⟩
        | ⟨i, inp, t, x, p, -, hsess, hag, rfl⟩ | ⟨i, x, -, hsess, rfl⟩ | ⟨x, o, -, -, rfl⟩
      · refine ⟨fun i hi => hnone i (Nat.le_of_succ_le hi), fun i t' p hp hag => ?_⟩
        by_cases hi : i = w₁.next
        · subst hi
          simp only [upd_self] at hp
          cases hp
          have hnil : w₁.store.script w₁.next = [] := hsigned.script_nil (Nat.le_refl _)
          show Trail _ _ _ _ _ (w₁.store.script w₁.next) _ (w₁.store.pending w₁.next)
          rw [hnil, hnone _ (Nat.le_refl _)]
          exact .nil _ _
        · simp only [upd_ne _ _ hi] at hp
          exact htrail i t' p hp hag
      · obtain ⟨⟨e, he, rfl, hscript, hpend⟩, hothers⟩ := exec_trail hx
        refine ⟨fun j hj => ?_, fun j t' p hp hag => ?_⟩
        · have hne : j ≠ i := Nat.ne_of_gt (Nat.lt_of_lt_of_le (hsigned.born i _ hsess) hj)
          show s'.pending j = []
          rw [(hothers j hne).2]
          exact hnone j hj
        · by_cases hj : j = i
          · subst hj
            simp only [upd_self] at hp
            cases hp
            show Trail _ _ _ _ _ (s'.script j) _ (s'.pending j)
            rw [hscript, hpend]
            exact (htrail j t _ hsess hag).snoc he _
          · simp only [upd_ne _ _ hj] at hp
            show Trail _ _ _ _ _ (s'.script j) _ (s'.pending j)
            rw [(hothers j hj).1, (hothers j hj).2]
            exact htrail j t' p hp hag
      · refine ⟨hnone, fun j t' p' hp hag' => ?_⟩
        by_cases hj : j = i
        · subst hj
          simp only [upd_self] at hp
          cases hp
          rw [hag] at hag'
          exact absurd hag' (by simp)
        · simp only [upd_ne _ _ hj] at hp
          exact htrail j t' p' hp hag'
      · have hpend : ∀ j, j ≠ i → (w₁.store.drop S.toEngine i).pending j = w₁.store.pending j :=
          fun j hj => upd_ne _ _ hj
        refine ⟨fun j hj => ?_, fun j t' p' hp hag => ?_⟩
        · have hne : j ≠ i := Nat.ne_of_gt (Nat.lt_of_lt_of_le (hsigned.born i _ hsess) hj)
          exact (hpend j hne).trans (hnone j hj)
        · by_cases hj : j = i
          · subst hj
            simp only [upd_self] at hp
            exact absurd hp (by simp)
          · simp only [upd_ne _ _ hj] at hp
            show Trail _ _ _ _ _ _ _ ((w₁.store.drop S.toEngine i).pending j)
            rw [hpend j hj]
            exact htrail j t' p' hp hag
      · exact ⟨hnone, htrail⟩

/-- A session that has crashed has left a trail as well. -/
theorem Reachable.walked {db : Db} {aux : Aux} (h : Reachable S (Store.init db aux) w)
    {i : Sid} {t : Tag}
    (ht : ∀ o ∈ w.store.script i, o.tag = t) (hag : S.again t = none) :
    ∃ p ws, Trail S.toEngine i t (S.start t) [] (w.store.script i) p ws := by
  induction h with
  | init => exact ⟨_, _, .nil _ _⟩
  | tail hr hs ih =>
      rename_i w₁ w₂ a
      rcases step_cases hs with ⟨t', -, rfl⟩ | ⟨j, inp, t', q, k, r, s', -, hsess, hx, rfl⟩
        | ⟨j, inp, t', x, p, -, -, -, rfl⟩ | ⟨j, x, -, -, rfl⟩ | ⟨x, o, -, -, rfl⟩
      · exact ih ht
      · obtain ⟨⟨e, he, -, hscript, -⟩, hothers⟩ := exec_trail hx
        have ht : ∀ o ∈ s'.script i, o.tag = t := ht
        show ∃ p ws, Trail _ _ _ _ _ (s'.script i) p ws
        by_cases hij : i = j
        · subst hij
          rw [hscript] at ht ⊢
          have htag : t' = t := ht ⟨i, t', q, inp, w₁.store.db, w₁.store.aux, e.ans.isOk,
            w₁.store.commits.length⟩ (by simp)
          subst htag
          exact ⟨_, _, (hr.trail.2 i t' _ hsess hag).snoc he _⟩
        · rw [(hothers i hij).1] at ht ⊢
          exact ih ht
      · exact ih ht
      · exact ih ht
      · exact ih ht

/-- **What a live session has buffered is what its statements have left.** -/
theorem Reachable.buffered {db : Db} {aux : Aux} (h : Reachable S (Store.init db aux) w) :
    ∀ i x, w.sess i = some x → w.store.pending i = S.buffered [] (w.store.script i) := by
  induction h with
  | init => exact fun i x hx => absurd hx (by simp [World.init])
  | tail hr hs ih =>
      rename_i w₁ w₂ a
      rcases step_cases hs with ⟨t, -, rfl⟩ | ⟨i, inp, t, q, k, r, s', -, hsess, hx, rfl⟩
        | ⟨i, inp, t, x, p, -, hsess, -, rfl⟩ | ⟨i, x, -, -, rfl⟩ | ⟨x, o, -, -, rfl⟩
      · intro j x hj
        by_cases he : j = w₁.next
        · subst he
          have hnil : w₁.store.script w₁.next = [] := hr.signed.script_nil (Nat.le_refl _)
          show w₁.store.pending w₁.next = S.buffered [] (w₁.store.script w₁.next)
          rw [hnil, hr.trail.1 _ (Nat.le_refl _)]
          rfl
        · simp only [upd_ne _ _ he] at hj
          exact ih j x hj
      · intro j x hj
        obtain ⟨⟨e, he, -, hscript, hpend⟩, hothers⟩ := exec_trail hx
        show s'.pending j = S.buffered [] (s'.script j)
        by_cases hji : j = i
        · subst hji
          have hold := ih j _ hsess
          rw [hscript, hpend, Engine.buffered_append, ← hold, Engine.buffered, he]
          rfl
        · simp only [upd_ne _ _ hji] at hj
          rw [(hothers j hji).1, (hothers j hji).2]
          exact ih j x hj
      · intro j x hj
        by_cases hji : j = i
        · subst hji
          exact ih j _ hsess
        · simp only [upd_ne _ _ hji] at hj
          exact ih j x hj
      · intro j x hj
        by_cases hji : j = i
        · subst hji
          simp only [upd_self] at hj
          exact absurd hj (by simp)
        · simp only [upd_ne _ _ hji] at hj
          show (w₁.store.drop S.toEngine i).pending j = _
          rw [Store.drop]
          simp only [upd_ne _ _ hji]
          exact ih j x hj
      · exact ih

/-- **A commit that goes through is recorded**, at the place its clock says, with what its
session had buffered; and what the session does afterwards is later. -/
theorem Reachable.sealed {db : Db} {aux : Aux} (h : Reachable S (Store.init db aux) w) {i : Sid}
    {os os' : List (Obs Db Aux Stmt Inp Tag)} {d : Obs Db Aux Stmt Inp Tag}
    (hs : w.store.script i = os ++ d :: os') {e : Effect Write Res Aux ε (Ans d.stmt)}
    (he : S.run d.stmt d.inp i (S.applyAll d.db (S.buffered [] os)) d.aux = some e)
    (hctl : e.ctl = .commit) (hws : S.buffered [] os ≠ []) :
    w.store.commits[d.clock]? = some ⟨i, d.tag, S.buffered [] os⟩
      ∧ ∀ o ∈ os', d.clock < o.clock := by
  induction h generalizing os' with
  | init => exact absurd hs (by simp [World.init, Store.init, Store.script])
  | tail hr hstep ih =>
      rename_i w₁ w₂ a
      obtain ⟨cs, -, hcs, -⟩ := step_history hstep
      -- the statement was there before
      have hold : ∀ {os' : List (Obs Db Aux Stmt Inp Tag)}, w₁.store.script i = os ++ d :: os' →
          w₂.store.commits[d.clock]? = some ⟨i, d.tag, S.buffered [] os⟩
            ∧ (∀ o ∈ os', d.clock < o.clock) ∧ d.clock < w₁.store.commits.length := by
        intro os' hs'
        obtain ⟨hcommit, hlate⟩ := ih hs'
        refine ⟨?_, hlate, (List.getElem?_eq_some_iff.mp hcommit).1⟩
        rw [hcs]
        exact getElem?_of_append cs hcommit
      have hsame : w₂.store.script i = w₁.store.script i →
          w₂.store.commits[d.clock]? = some ⟨i, d.tag, S.buffered [] os⟩
            ∧ ∀ o ∈ os', d.clock < o.clock := fun hsc =>
        ⟨(hold (hsc.symm.trans hs)).1, (hold (hsc.symm.trans hs)).2.1⟩
      rcases step_cases hstep with ⟨t, -, rfl⟩ | ⟨j, inp, t, q, k, r, s', -, hsess, hx, rfl⟩
        | ⟨j, inp, t, x, p, -, hsess, -, rfl⟩ | ⟨j, x, -, -, rfl⟩ | ⟨x, o, -, -, rfl⟩
      · exact hsame rfl
      · obtain ⟨⟨e', -, -, hscript, -⟩, hothers⟩ := exec_trail hx
        by_cases hij : i = j
        · subst hij
          have hs : s'.script i = os ++ d :: os' := hs
          rw [hscript] at hs
          rcases List.eq_nil_or_concat os' with rfl | ⟨os'', o, rfl⟩
          · -- it is the statement of this move
            obtain ⟨hpre, hd⟩ := List.append_inj' hs rfl
            cases List.singleton_inj.mp hd
            have hpend : w₁.store.pending i = S.buffered [] os := by
              rw [← hpre]
              exact hr.buffered i _ hsess
            obtain ⟨e'', he'', -, -, hout⟩ := exec_outcome hx
            have heq : e'' = e := by
              rw [Store.view, hpend] at he''
              exact Option.some.inj (he''.symm.trans he)
            subst heq
            refine ⟨?_, by simp⟩
            cases hout with
            | stay ctl => exact absurd (ctl.symm.trans hctl) (by simp)
            | abort ctl => exact absurd (ctl.symm.trans hctl) (by simp)
            | commit _ _ commits _ =>
                have hcommits : s'.commits = w₁.store.commits ++ [⟨i, t, S.buffered [] os⟩] := by
                  rw [commits, Store.record, hpend, if_neg (by simpa using hws)]
                show s'.commits[w₁.store.commits.length]? = _
                rw [hcommits]
                exact List.getElem?_concat_length
          · -- it is an earlier one, and this move comes after it
            rw [List.concat_eq_append, ← List.cons_append, ← List.append_assoc] at hs
            obtain ⟨hpre, hd⟩ := List.append_inj' hs rfl
            obtain ⟨hcommit, hlate, hlt⟩ := hold hpre
            refine ⟨hcommit, fun o' ho' => ?_⟩
            rw [List.concat_eq_append] at ho'
            rcases List.mem_append.mp ho' with ho' | ho'
            · exact hlate o' ho'
            · rw [List.mem_singleton.mp ho', ← List.singleton_inj.mp hd]
              exact hlt
        · exact hsame (hothers i hij).1
      · exact hsame rfl
      · exact hsame rfl
      · exact hsame rfl

/-- Commit number `n` was the next statement of its session's program, and what it has committed is
what the statements before it had left. -/
def Committed (S : System Db Write Res Aux Stmt Inp Env ε Tag α Ans)
    (s : Store Db Write Res Aux Stmt Inp Tag) (n : Nat) (c : Commit Write Tag) : Prop :=
  ∃ (os : List (Obs Db Aux Stmt Inp Tag)) (d : Obs Db Aux Stmt Inp Tag)
    (os' : List (Obs Db Aux Stmt Inp Tag)) (K : Except ε (Ans d.stmt) → Prog Stmt Ans ε α)
    (e : Effect Write Res Aux ε (Ans d.stmt)),
    s.script c.sid = os ++ d :: os' ∧ d.clock = n ∧ c.writes ≠ []
      ∧ Trail S.toEngine c.sid c.tag (S.start c.tag) [] os (.call d.stmt K) c.writes
      ∧ S.run d.stmt d.inp c.sid (S.applyAll d.db c.writes) d.aux = some e ∧ e.ctl = .commit

/-- **Every commit of a session that does not loop has a trail up to it.** -/
theorem Reachable.committed {db : Db} {aux : Aux} (h : Reachable S (Store.init db aux) w) {n : Nat}
    {c : Commit Write Tag} (hc : w.store.commits[n]? = some c) (hag : S.again c.tag = none) :
    Committed S w.store n c := by
  induction h with
  | init => exact absurd hc (by simp [World.init, Store.init])
  | tail hr hs ih =>
      rename_i w₁ w₂ a
      rcases step_cases hs with ⟨t, -, rfl⟩ | ⟨i, inp, t, q, k, r, s', -, hsess, hx, rfl⟩
        | ⟨i, inp, t, x, p, -, -, -, rfl⟩ | ⟨i, x, -, -, rfl⟩ | ⟨x, o, -, -, rfl⟩
      · exact ih hc
      · obtain ⟨⟨e₀, -, rfl, hscript, -⟩, hothers⟩ := exec_trail hx
        -- an older commit only sees its session go on
        obtain ⟨o, ho⟩ : ∃ o, s'.script i = w₁.store.script i ++ [o] := ⟨_, hscript⟩
        have hold : w₁.store.commits[n]? = some c → Committed S s' n c := by
          intro hc₁
          obtain ⟨os, d, os', K, e, hsplit, hrest⟩ := ih hc₁
          by_cases hi : c.sid = i
          · refine ⟨os, d, os' ++ [o], K, e, ?_, hrest⟩
            rw [hi, ho, ← hi, hsplit, List.append_assoc, List.cons_append]
          · exact ⟨os, d, os', K, e, ((hothers c.sid hi).1).trans hsplit, hrest⟩
        obtain ⟨e, he, -, -, hout⟩ := exec_outcome hx
        have hc : s'.commits[n]? = some c := hc
        cases hout with
        | stay _ _ commits _ _ => exact hold (commits ▸ hc)
        | abort _ _ commits _ => exact hold (commits ▸ hc)
        | commit ctl _ commits _ =>
            rw [commits, Store.record] at hc
            by_cases hnil : (w₁.store.pending i).isEmpty = true
            · rw [if_pos hnil] at hc
              exact hold hc
            rw [if_neg hnil] at hc
            by_cases hn : n < w₁.store.commits.length
            · rw [List.getElem?_append_left hn] at hc
              exact hold hc
            · -- it is this statement
              rw [List.getElem?_append_right (Nat.not_lt.mp hn), List.getElem?_singleton] at hc
              split at hc
              · rename_i hzero
                cases hc
                have hlast : w₁.store.commits.length = n := by omega
                exact ⟨w₁.store.script i, ⟨i, t, q, inp, w₁.store.db, w₁.store.aux, e₀.ans.isOk,
                  w₁.store.commits.length⟩, [], k, e, hscript, hlast,
                  fun h => hnil (by simpa using h), hr.trail.2 i t _ hsess hag, he, ctl⟩
              · exact absurd hc (by simp)
      · exact ih hc
      · exact ih hc
      · exact ih hc

/-- **Whatever a session writes, some statement its programs can issue writes**: so do the commits
of a run, and what is buffered in it. -/
theorem Reachable.writes {P : Tag → Stmt → Prop} {W : Tag → Write → Prop} {db : Db} {aux : Aux}
    (h : Reachable S (Store.init db aux) w) (hstart : ∀ t, (S.start t).Uses (P t))
    (hagain : ∀ t p, S.again t = some p → p.Uses (P t))
    (hrun : ∀ {t q inp i db aux e}, P t q → S.run q inp i db aux = some e → ∀ x ∈ e.writes, W t x) :
    (∀ i, w.sess i = none → w.store.pending i = [])
      ∧ (∀ i t p, w.sess i = some (t, p) → ∀ x ∈ w.store.pending i, W t x)
      ∧ ∀ c ∈ w.store.commits, ∀ x ∈ c.writes, W c.tag x := by
  induction h with
  | init =>
      refine ⟨fun i _ => rfl, fun i t p hp => ?_, fun c hc => ?_⟩
      · exact absurd hp (by simp [World.init])
      · exact absurd hc (by simp [World.init, Store.init])
  | tail hr hs ih =>
      rename_i w₁ w₂ a
      obtain ⟨hnone, hlive, hcommits⟩ := ih
      have huses := (hr.uses (by simp [Store.init]) hstart hagain).1
      -- sessions that do not move keep their buffers
      have hold : ∀ {j : Sid} {x : Option (Tag × Prog Stmt Ans ε α)} {f : Sid → List Write},
          (∀ i, i ≠ j → f i = w₁.store.pending i) → (x = none → f j = []) →
          (∀ t p, x = some (t, p) → ∀ y ∈ f j, W t y) →
          (∀ i, upd w₁.sess j x i = none → f i = [])
            ∧ ∀ i t p, upd w₁.sess j x i = some (t, p) → ∀ y ∈ f i, W t y := by
        intro j x f hf hx hx'
        refine ⟨fun i hi => ?_, fun i t p hi => ?_⟩
        · by_cases hij : i = j
          · subst hij
            rw [upd_self] at hi
            exact hx hi
          · rw [upd_ne _ _ hij] at hi
            rw [hf i hij]
            exact hnone i hi
        · by_cases hij : i = j
          · subst hij
            rw [upd_self] at hi
            exact hx' t p hi
          · rw [upd_ne _ _ hij] at hi
            rw [hf i hij]
            exact hlive i t p hi
      rcases step_cases hs with ⟨t, -, rfl⟩ | ⟨i, inp, t, q, k, r, s', -, hi, hx, rfl⟩
        | ⟨i, inp, t, x, p, -, hi, -, rfl⟩ | ⟨i, x, -, -, rfl⟩ | ⟨x, o, -, -, rfl⟩
      · -- nobody has used the new id
        have hfree : w₁.store.pending w₁.next = [] := by
          refine hnone _ ?_
          cases hn : w₁.sess w₁.next with
          | none => rfl
          | some x => exact absurd (hr.signed.born _ x hn) (Nat.lt_irrefl _)
        obtain ⟨h₁, h₂⟩ := hold (j := w₁.next) (x := some (t, S.start t)) (fun _ _ => rfl)
          (fun _ => hfree) (fun _ _ _ y hy => absurd hy (by rw [hfree]; simp))
        exact ⟨h₁, h₂, hcommits⟩
      · obtain ⟨e, he, -, -, hout⟩ := exec_outcome hx
        have hothers : ∀ j, j ≠ i → s'.pending j = w₁.store.pending j :=
          fun j hj => ((exec_trail hx).2 j hj).2
        have hnew : ∀ y ∈ s'.pending i, W t y := by
          cases hout with
          | stay _ _ _ pending =>
              intro y hy
              rw [pending, List.mem_append] at hy
              rcases hy with hy | hy
              · exact hlive i t _ hi y hy
              · exact hrun (huses i t _ hi).1 he y hy
          | commit _ _ _ idle => rw [idle.pending]; simp
          | abort _ _ _ idle => rw [idle.pending]; simp
        obtain ⟨h₁, h₂⟩ := hold (j := i) (x := some (t, k r)) hothers
          (fun h => absurd h (by simp)) (fun t' p hp => by cases hp; exact hnew)
        refine ⟨h₁, h₂, ?_⟩
        cases hout with
        | stay _ _ commits _ _ => intro c hc; exact hcommits c (commits ▸ hc)
        | abort _ _ commits _ => intro c hc; exact hcommits c (commits ▸ hc)
        | commit _ _ commits _ =>
            obtain ⟨l, hl, -, hl'⟩ := record_eq w₁.store.commits i t (w₁.store.pending i)
            intro c hc
            have hc : c ∈ s'.commits := hc
            rw [commits, hl, List.mem_append] at hc
            rcases hc with hc | hc
            · exact hcommits c hc
            · rw [hl' c hc]
              exact hlive i t _ hi
      · obtain ⟨h₁, h₂⟩ := hold (j := i) (x := some (t, p)) (fun _ _ => rfl)
          (fun h => absurd h (by simp)) (fun t' p' hp => by cases hp; exact hlive i t _ hi)
        exact ⟨h₁, h₂, hcommits⟩
      · obtain ⟨h₁, h₂⟩ := hold (j := i) (x := none) (f := (w₁.store.drop S.toEngine i).pending)
          (fun j hj => upd_ne _ _ hj) (fun _ => upd_self _ _ _) (fun t p h => absurd h (by simp))
        exact ⟨h₁, h₂, hcommits⟩
      · exact ⟨hnone, hlive, hcommits⟩

variable {w₁ w₂ : World Db Write Res Aux Stmt Inp ε Tag α Ans}

/-- An earlier state is in the past of a later one. -/
theorem Later.past {db : Db} {aux : Aux} (h : Reachable S (Store.init db aux) w₁)
    (hl : Later S w₁ w₂) : w₁.store.commits.length ≤ w₂.store.commits.length
      ∧ w₁.store.db = w₂.store.past S.toEngine db w₁.store.commits.length := by
  obtain ⟨cs, os, hcs, -⟩ := hl.history
  refine ⟨by rw [hcs, List.length_append]; exact Nat.le_add_right _ _, ?_⟩
  rw [past_append hcs (Nat.le_refl _)]
  exact h.past.1

/-- A session that starts later executes its statements later. -/
theorem Later.script {db : Db} {aux : Aux} (h : Reachable S (Store.init db aux) w₁)
    (hl : Later S w₁ w₂) {j : Sid} (hj : w₁.next ≤ j) {o : Obs Db Aux Stmt Inp Tag}
    (ho : o ∈ w₂.store.script j) :
    w₁.store.commits.length ≤ o.clock ∧ ∃ os, w₂.store.trace = w₁.store.trace ++ os ∧ o ∈ os := by
  obtain ⟨hmem, hsid⟩ := mem_script.mp ho
  obtain ⟨cs, os, -, hos, -, hnew⟩ := hl.history
  rw [hos, List.mem_append] at hmem
  rcases hmem with hold | hmem
  · have hlt := h.signed.trace o hold
    rw [hsid] at hlt
    exact absurd hlt (Nat.not_lt.mpr hj)
  · exact ⟨hnew o hmem, os, hos, hmem⟩

end Isolation
