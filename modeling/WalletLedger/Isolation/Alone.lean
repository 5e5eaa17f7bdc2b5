import WalletLedger.Isolation.Store

/-!
# One session at a time

The serial reading of a program: it runs from its first statement to its last
with nobody else around. `Alone` is its big-step relation; what the environment
draws is existentially quantified, so a derivation says that the program *can*
end this way, for a fitting choice of drawn values.

The rules are those of a sequential language. `Solo` is what they carry: the one
session with an open transaction, and its buffer.
-/

namespace Isolation

variable {Db Write Res Aux Stmt Inp Env ε Tag α β : Type} {Ans : Stmt → Type}

/-- `p`, run by session `i` from `s` without interruption, ends with `r` in `s'`. -/
inductive Alone [DecidableEq Res] (E : Engine Db Write Res Aux Stmt Inp Env ε Ans)
    (i : Sid) (t : Tag) :
    Prog Stmt Ans ε α → Store Db Write Res Aux Stmt Inp Tag → Except ε α →
      Store Db Write Res Aux Stmt Inp Tag → Prop where
  | ret (a : α) (s : Store Db Write Res Aux Stmt Inp Tag) : Alone E i t (.ret a) s (.ok a) s
  | raise (e : ε) (s : Store Db Write Res Aux Stmt Inp Tag) : Alone E i t (.raise e) s (.error e) s
  | call {q : Stmt} {k : Except ε (Ans q) → Prog Stmt Ans ε α} {inp : Inp} {r : Except ε (Ans q)}
      {r' : Except ε α} {s s' s'' : Store Db Write Res Aux Stmt Inp Tag} :
      exec E i t q inp s = some (r, s') → Alone E i t (k r) s' r' s'' →
        Alone E i t (.call q k) s r' s''

section rules

variable [DecidableEq Res] {E : Engine Db Write Res Aux Stmt Inp Env ε Ans} {i : Sid} {t : Tag}
  {p : Prog Stmt Ans ε α} {s s' s'' : Store Db Write Res Aux Stmt Inp Tag} {r : Except ε α}
  {r' : Except ε β}

theorem Alone.handle {f : Except ε α → Prog Stmt Ans ε β} (hp : Alone E i t p s r s')
    (hf : Alone E i t (f r) s' r' s'') : Alone E i t (p.handle f) s r' s'' := by
  induction hp with
  | ret a s => exact hf
  | raise e s => exact hf
  | call hx _ ih => exact .call hx (ih hf)

theorem Alone.bind {f : α → Prog Stmt Ans ε β} {a : α} (hp : Alone E i t p s (.ok a) s')
    (hf : Alone E i t (f a) s' r' s'') : Alone E i t (p >>= f) s r' s'' := hp.handle hf

theorem Alone.map {f : α → β} {a : α} (hp : Alone E i t p s (.ok a) s') :
    Alone E i t (f <$> p) s (.ok (f a)) s' := hp.bind (.ret _ _)

theorem Alone.perform {q : Stmt} {inp : Inp} {r : Except ε (Ans q)}
    (hx : exec E i t q inp s = some (r, s')) : Alone E i t (Prog.perform q) s r s' := by
  refine .call hx ?_
  cases r with
  | ok a => exact .ret a s'
  | error e => exact .raise e s'

end rules

/-! ## A store with one open transaction -/

/-- At most session `i` has a transaction open, and it has buffered `ws`. -/
structure Solo (i : Sid) (ws : List Write) (s : Store Db Write Res Aux Stmt Inp Tag) : Prop where
  pending : s.pending i = ws
  others : ∀ j, j ≠ i → s.pending j = []
  locks : ∀ l ∈ s.locks, l.2 = i

/-- No transaction is open. -/
structure AtRest (s : Store Db Write Res Aux Stmt Inp Tag) : Prop where
  pending : ∀ j, s.pending j = []
  locks : s.locks = []

theorem AtRest.solo {s : Store Db Write Res Aux Stmt Inp Tag} (h : AtRest s) (i : Sid) :
    Solo i [] s :=
  ⟨h.pending i, fun j _ => h.pending j, by rw [h.locks]; simp⟩

/-- What is committed, with nobody in the middle of anything. -/
def Store.idle (s : Store Db Write Res Aux Stmt Inp Tag) : Store Db Write Res Aux Stmt Inp Tag :=
  { s with pending := fun _ => [], locks := [] }

theorem idle_atRest (s : Store Db Write Res Aux Stmt Inp Tag) : AtRest s.idle := ⟨fun _ => rfl, rfl⟩

section solo

variable [DecidableEq Res] {E : Engine Db Write Res Aux Stmt Inp Env ε Ans} {i : Sid} {t : Tag}
  {q : Stmt} {inp : Inp} {ws : List Write} {s : Store Db Write Res Aux Stmt Inp Tag}
  {e : Effect Write Res Aux ε (Ans q)}

theorem Solo.exec_eq (h : Solo i ws s) (he : E.run q inp i (E.applyAll s.db ws) s.aux = some e) :
    exec E i t q inp s = some (e.ans, (s.observe i t q inp e.ans.isOk).settle E i t e) :=
  exec_own h.locks (by rw [Store.view, h.pending]; exact he)

/-- A statement inside the transaction. -/
theorem Solo.stay (h : Solo i ws s) (he : E.run q inp i (E.applyAll s.db ws) s.aux = some e)
    (hc : e.ctl = .stay) : ∃ s', exec E i t q inp s = some (e.ans, s')
      ∧ Solo i (ws ++ e.writes) s' ∧ s'.db = s.db ∧ s'.aux = e.aux := by
  refine ⟨_, h.exec_eq he, ?_⟩
  unfold Store.settle
  rw [hc]
  refine ⟨⟨?_, ?_, ?_⟩, rfl, rfl⟩
  · simp [Store.observe, h.pending]
  · intro j hj
    exact (upd_ne _ _ hj).trans (h.others j hj)
  · intro l hl
    simp only [Store.observe, List.mem_append, List.mem_map] at hl
    rcases hl with hl | ⟨r, -, rfl⟩
    · exact h.locks l hl
    · rfl

omit [DecidableEq Res] in
/-- The locks of the only session are all there are. -/
theorem Solo.release (h : Solo i ws s) : Store.release s.locks i = [] := by
  unfold Store.release
  rw [List.filter_eq_nil_iff]
  intro l hl
  simp [h.locks l hl]

omit [DecidableEq Res] in
/-- After its transaction nothing is open. -/
theorem Solo.pending_nil (h : Solo i ws s) (j : Sid) : upd s.pending i [] j = [] := by
  by_cases hj : j = i
  · subst hj; exact upd_self _ _ _
  · exact (upd_ne _ _ hj).trans (h.others j hj)

/-- The commit. -/
theorem Solo.commit (h : Solo i ws s) (he : E.run q inp i (E.applyAll s.db ws) s.aux = some e)
    (hc : e.ctl = .commit) : ∃ s', exec E i t q inp s = some (e.ans, s')
      ∧ AtRest s' ∧ s'.db = E.applyAll s.db ws ∧ s'.aux = e.aux := by
  refine ⟨_, h.exec_eq he, ?_⟩
  unfold Store.settle
  rw [hc]
  exact ⟨⟨h.pending_nil, h.release⟩, congrArg (E.applyAll s.db) h.pending, rfl⟩

/-- The end of a transaction without a commit. -/
theorem Solo.abort (h : Solo i ws s) (he : E.run q inp i (E.applyAll s.db ws) s.aux = some e)
    (hc : e.ctl = .abort) : ∃ s', exec E i t q inp s = some (e.ans, s')
      ∧ AtRest s' ∧ s'.db = s.db ∧ s'.aux = e.aux := by
  refine ⟨_, h.exec_eq he, ?_⟩
  unfold Store.settle
  rw [hc]
  exact ⟨⟨h.pending_nil, h.release⟩, rfl, rfl⟩

end solo

end Isolation
