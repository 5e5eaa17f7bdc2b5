import WalletLedger.Isolation.Logic

/-!
# Runs and their history

What holds of every run of every system, whatever its programs do. The committed
state is the initial one with the recorded write sets applied in order, and every
statement has met a state on the way there. History only grows, and everything in
it carries the tag of its session.

`step_cases` says what one move can do. The rest is by induction on runs.
-/

namespace Isolation

variable {Db Write Res Aux Stmt Inp Env ε Tag α : Type} {Ans : Stmt → Type} [DecidableEq Res]
  {S : System Db Write Res Aux Stmt Inp Env ε Tag α Ans}
  {s₀ : Store Db Write Res Aux Stmt Inp Tag}
  {w w₁ w₂ w₃ : World Db Write Res Aux Stmt Inp ε Tag α Ans} {a : Action Tag Inp Env}

/-- Worlds some run leads to from `w`. -/
inductive Later (S : System Db Write Res Aux Stmt Inp Env ε Tag α Ans)
    (w : World Db Write Res Aux Stmt Inp ε Tag α Ans) :
    World Db Write Res Aux Stmt Inp ε Tag α Ans → Prop where
  | refl : Later S w w
  | tail {w₁ w₂ : World Db Write Res Aux Stmt Inp ε Tag α Ans} {a : Action Tag Inp Env} :
      Later S w w₁ → S.step w₁ a = some w₂ → Later S w w₂

theorem Reachable.later (h : Reachable S s₀ w₁) (hl : Later S w₁ w₂) : Reachable S s₀ w₂ := by
  induction hl with
  | refl => exact h
  | tail _ hs ih => exact ih.tail hs

theorem Later.trans (h : Later S w w₁) (hl : Later S w₁ w₂) : Later S w w₂ := by
  induction hl with
  | refl => exact h
  | tail _ hs ih => exact ih.tail hs

theorem Later.runs (h : Later S w w₁) {as : List (Action Tag Inp Env)}
    (hr : S.runs w₁ as = some w₂) : Later S w w₂ := by
  induction as generalizing w₁ with
  | nil => injection hr with hr; subst hr; exact h
  | cons a as ih =>
      rw [System.runs] at hr
      cases hs : S.step w₁ a with
      | none => rw [hs] at hr; exact absurd hr (by simp)
      | some w₃ => rw [hs] at hr; exact ih (h.tail hs) hr

/-! ## What one move can do -/

/-- **Everything a move can do**, by what it does to the store. -/
theorem step_cases (h : S.step w a = some w₁) :
    (∃ t, a = .spawn t ∧ w₁ = ⟨w.store, upd w.sess w.next (some (t, S.start t)), w.next + 1⟩)
    ∨ (∃ i inp t q k r s', a = .exec i inp ∧ w.sess i = some (t, .call q k)
        ∧ exec S.toEngine i t q inp w.store = some (r, s')
        ∧ w₁ = ⟨s', upd w.sess i (some (t, k r)), w.next⟩)
    ∨ (∃ i inp t x p, a = .exec i inp ∧ w.sess i = some (t, .ret x) ∧ S.again t = some p
        ∧ w₁ = ⟨w.store, upd w.sess i (some (t, p)), w.next⟩)
    ∨ (∃ i x, a = .crash i ∧ w.sess i = some x
        ∧ w₁ = ⟨w.store.drop S.toEngine i, upd w.sess i none, w.next⟩)
    ∨ ∃ x o, a = .env x ∧ S.env x w.store.aux = some o
        ∧ w₁ = ⟨{ w.store with aux := o }, w.sess, w.next⟩ := by
  cases a with
  | spawn t =>
      injection h with h
      exact .inl ⟨t, rfl, h.symm⟩
  | exec i inp =>
      rw [System.step] at h
      cases hsess : w.sess i with
      | none => rw [hsess] at h; exact absurd h (by simp)
      | some x =>
          obtain ⟨t, p⟩ := x
          rw [hsess] at h
          cases p with
          | raise e => exact absurd h (by simp)
          | ret x =>
              cases hag : S.again t with
              | none => simp only [hag] at h; exact absurd h (by simp)
              | some p =>
                  simp only [hag] at h
                  injection h with h
                  exact .inr (.inr (.inl ⟨i, inp, t, x, p, rfl, hsess, hag, h.symm⟩))
          | call q k =>
              cases hx : exec S.toEngine i t q inp w.store with
              | none => simp only [hx] at h; exact absurd h (by simp)
              | some y =>
                  obtain ⟨r, s'⟩ := y
                  simp only [hx] at h
                  injection h with h
                  exact .inr (.inl ⟨i, inp, t, q, k, r, s', rfl, hsess, hx, h.symm⟩)
  | crash i =>
      rw [System.step] at h
      cases hsess : w.sess i with
      | none => rw [hsess] at h; exact absurd h (by simp)
      | some x =>
          rw [hsess] at h
          injection h with h
          exact .inr (.inr (.inr (.inl ⟨i, x, rfl, hsess, h.symm⟩)))
  | env x =>
      rw [System.step] at h
      cases he : S.env x w.store.aux with
      | none => rw [he] at h; exact absurd h (by simp)
      | some o =>
          rw [he] at h
          injection h with h
          exact .inr (.inr (.inr (.inr ⟨x, o, rfl, he, h.symm⟩)))

/-- A statement that takes no lock can be executed at once. -/
theorem exec_lockFree {E : Engine Db Write Res Aux Stmt Inp Env ε Ans} {i : Sid}
    {t : Tag} {q : Stmt}
    {inp : Inp} {s : Store Db Write Res Aux Stmt Inp Tag} {e : Effect Write Res Aux ε (Ans q)}
    (he : E.run q inp i (s.view E i) s.aux = some e) (hlocks : e.locks = []) :
    ∃ s', exec E i t q inp s = some (e.ans, s') := by
  have hfree : s.blocked i e.locks = false := by
    rw [hlocks]
    simp [Store.blocked]
  unfold exec
  rw [he]
  simp only [hfree]
  exact ⟨_, rfl⟩

theorem step_lockFree {i : Sid} {inp : Inp} {t : Tag} {q : Stmt}
    {k : Except ε (Ans q) → Prog Stmt Ans ε α} {e : Effect Write Res Aux ε (Ans q)}
    (hsess : w.sess i = some (t, .call q k))
    (he : S.run q inp i (w.store.view S.toEngine i) w.store.aux = some e) (hlocks : e.locks = []) :
    ∃ w', S.step w (.exec i inp) = some w' := by
  obtain ⟨s', hx⟩ := exec_lockFree (t := t) he hlocks
  rw [System.step, hsess]
  simp only [hx]
  exact ⟨_, rfl⟩

theorem step_own {i : Sid} {inp : Inp} {t : Tag} {q : Stmt} {k : Except ε (Ans q)
    → Prog Stmt Ans ε α}
    {e : Effect Write Res Aux ε (Ans q)} (hsess : w.sess i = some (t, .call q k))
    (hown : ∀ l ∈ w.store.locks, l.2 = i)
    (he : S.run q inp i (w.store.view S.toEngine i) w.store.aux = some e) :
    ∃ w', S.step w (.exec i inp) = some w' := by
  have hx := exec_own (t := t) hown he
  rw [System.step, hsess]
  simp only [hx]
  exact ⟨_, rfl⟩

/-- A statement adds itself to the history, and possibly the commit it is. -/
theorem exec_history {i : Sid} {t : Tag} {q : Stmt} {inp : Inp} {r : Except ε (Ans q)}
    {s s' : Store Db Write Res Aux Stmt Inp Tag}
    (h : exec S.toEngine i t q inp s = some (r, s')) :
    ∃ l, s'.commits = s.commits ++ l ∧ s'.db = S.toEngine.applyAll s.db (l.flatMap Commit.writes)
      ∧ ∀ c ∈ l, c.sid = i ∧ c.tag = t := by
  obtain ⟨e, -, -, -, ho⟩ := exec_outcome h
  cases ho with
  | stay _ db commits => exact ⟨[], by rw [commits, List.append_nil], by rw [db]; rfl, by simp⟩
  | abort _ db commits => exact ⟨[], by rw [commits, List.append_nil], by rw [db]; rfl, by simp⟩
  | commit _ db commits =>
      obtain ⟨l, hl, hw, hn⟩ := record_eq s.commits i t (s.pending i)
      refine ⟨l, commits.trans hl, by rw [db, hw], fun c hc => ?_⟩
      rw [hn c hc]
      exact ⟨rfl, rfl⟩

/-- What a move adds to the history. -/
theorem step_history (h : S.step w a = some w₁) :
    ∃ cs os, w₁.store.commits = w.store.commits ++ cs ∧ w₁.store.trace = w.store.trace ++ os
      ∧ w₁.store.db = S.toEngine.applyAll w.store.db (cs.flatMap Commit.writes)
      ∧ (∀ o ∈ os, o.db = w.store.db ∧ o.aux = w.store.aux ∧ o.clock = w.store.commits.length)
      ∧ (∀ c ∈ cs, ∃ p, w.sess c.sid = some (c.tag, p))
      ∧ ∀ o ∈ os, ∃ p, w.sess o.sid = some (o.tag, p) := by
  rcases step_cases h with ⟨t, -, rfl⟩ | ⟨i, inp, t, q, k, r, s', -, hsess, hx, rfl⟩
    | ⟨i, inp, t, x, p, -, -, -, rfl⟩ | ⟨i, x, -, -, rfl⟩ | ⟨x, o, -, -, rfl⟩
  · exact ⟨[], [], by simp⟩
  · obtain ⟨l, hl, hdb, hn⟩ := exec_history hx
    refine ⟨l, _, hl, exec_trace hx, hdb, by simp, fun c hc => ?_, fun o ho => ?_⟩
    · obtain ⟨rfl, rfl⟩ := hn c hc
      exact ⟨_, hsess⟩
    · rw [List.mem_singleton.mp ho]
      exact ⟨_, hsess⟩
  · exact ⟨[], [], by simp⟩
  · exact ⟨[], [], by simp [Store.drop]⟩
  · exact ⟨[], [], by simp⟩

/-- What stands at a place of a list stays there when the list grows. -/
theorem getElem?_of_append {α : Type} {l : List α} (l' : List α) {n : Nat} {a : α}
    (h : l[n]? = some a) : (l ++ l')[n]? = some a := by
  obtain ⟨hn, -⟩ := List.getElem?_eq_some_iff.mp h
  rw [List.getElem?_append_left hn]
  exact h

/-- A move executes at most one statement. -/
theorem step_trace (h : S.step w a = some w₁) :
    w₁.store.trace = w.store.trace ∨ ∃ o, w₁.store.trace = w.store.trace ++ [o] := by
  rcases step_cases h with ⟨t, -, rfl⟩ | ⟨i, inp, t, q, k, r, s', -, hsess, hx, rfl⟩
    | ⟨i, inp, t, x, p, -, -, -, rfl⟩ | ⟨i, x, -, -, rfl⟩ | ⟨x, o, -, -, rfl⟩
  · exact .inl rfl
  · exact .inr ⟨_, exec_trace hx⟩
  · exact .inl rfl
  · exact .inl rfl
  · exact .inl rfl

/-- **What was so when each statement was executed** stays so, if it is so of a new one. -/
theorem step_moments (h : S.step w a = some w₁)
    {P : List (Obs Db Aux Stmt Inp Tag) → Obs Db Aux Stmt Inp Tag → Prop}
    (hold : ∀ k o, w.store.trace[k]? = some o → P (w.store.trace.take k) o)
    (hnew : ∀ o, w₁.store.trace = w.store.trace ++ [o] → P w.store.trace o) :
    ∀ k o, w₁.store.trace[k]? = some o → P (w₁.store.trace.take k) o := by
  intro k o ho
  rcases step_trace h with he | ⟨o', he⟩
  · rw [he] at ho ⊢
    exact hold k o ho
  · rw [he] at ho ⊢
    by_cases hk : k < w.store.trace.length
    · rw [List.getElem?_append_left hk] at ho
      rw [List.take_append_of_le_length (Nat.le_of_lt hk)]
      exact hold k o ho
    · -- the statement of this move
      have hlt := (List.getElem?_eq_some_iff.mp ho).1
      rw [List.length_append, List.length_singleton] at hlt
      have hk' : k = w.store.trace.length := by omega
      subst hk'
      rw [List.getElem?_append_right (Nat.le_refl _), Nat.sub_self] at ho
      injection ho with ho
      subst ho
      rw [List.take_left]
      exact hnew o' he

/-! ## The committed states of a run -/

/-- The committed state after the first `n` commits. -/
def Store.past (E : Engine Db Write Res Aux Stmt Inp Env ε Ans) (db₀ : Db)
    (s : Store Db Write Res Aux Stmt Inp Tag) (n : Nat) : Db :=
  E.applyAll db₀ ((s.commits.take n).flatMap Commit.writes)

omit [DecidableEq Res] in
/-- More commits do not change the past. -/
theorem past_append {E : Engine Db Write Res Aux Stmt Inp Env ε Ans} {db₀ : Db}
    {s s' : Store Db Write Res Aux Stmt Inp Tag} {l : List (Commit Write Tag)}
    (h : s'.commits = s.commits ++ l) {n : Nat} (hn : n ≤ s.commits.length) :
    s'.past E db₀ n = s.past E db₀ n := by
  unfold Store.past
  rw [h, List.take_append_of_le_length hn]

/-- **Every statement of a run has met one of its committed states**, and the last of
them is the present. -/
theorem Reachable.past {db : Db} {aux : Aux} (h : Reachable S (Store.init db aux) w) :
    w.store.db = w.store.past S.toEngine db w.store.commits.length
      ∧ ∀ o ∈ w.store.trace, o.clock ≤ w.store.commits.length
          ∧ o.db = w.store.past S.toEngine db o.clock := by
  induction h with
  | init =>
      refine ⟨rfl, fun o ho => ?_⟩
      exact absurd ho (by simp [World.init, Store.init])
  | tail _ hs ih =>
      obtain ⟨hdb, hseen⟩ := ih
      obtain ⟨cs, os, hcs, hos, hdb', hmet, -⟩ := step_history hs
      refine ⟨?_, fun o ho => ?_⟩
      · rw [hdb', hdb, Store.past, Store.past, hcs, List.take_length, List.take_length,
          List.flatMap_append, Engine.applyAll_append]
      · rw [hos, List.mem_append] at ho
        rw [hcs, List.length_append]
        rcases ho with ho | ho
        · obtain ⟨hn, he⟩ := hseen o ho
          exact ⟨Nat.le_add_right_of_le hn, by rw [past_append hcs hn]; exact he⟩
        · obtain ⟨hnow, -, hclock⟩ := hmet o ho
          rw [hclock]
          refine ⟨Nat.le_add_right _ _, ?_⟩
          rw [past_append hcs (Nat.le_refl _), hnow]
          exact hdb

/-- Statements are executed in the order of the states they meet. -/
theorem Reachable.clocks {db : Db} {aux : Aux} (h : Reachable S (Store.init db aux) w) :
    w.store.trace.Pairwise (fun o o' => o.clock ≤ o'.clock) := by
  induction h with
  | init => exact .nil
  | tail hr hs ih =>
      obtain ⟨cs, os, -, hos, -, hmet, -⟩ := step_history hs
      rw [hos, List.pairwise_append]
      refine ⟨ih, List.pairwise_of_forall_mem_list (fun o ho o' ho' => ?_), fun o ho o' ho' => ?_⟩
      · exact Nat.le_of_eq ((hmet o ho).2.2.trans (hmet o' ho').2.2.symm)
      · exact Nat.le_trans (hr.past.2 o ho).1 (Nat.le_of_eq (hmet o' ho').2.2.symm)

/-- History only grows, and what is new in it is later. -/
theorem Later.history (h : Later S w w₁) :
    ∃ cs os, w₁.store.commits = w.store.commits ++ cs ∧ w₁.store.trace = w.store.trace ++ os
      ∧ w₁.store.db = S.toEngine.applyAll w.store.db (cs.flatMap Commit.writes)
      ∧ ∀ o ∈ os, w.store.commits.length ≤ o.clock := by
  induction h with
  | refl => exact ⟨[], [], by simp⟩
  | tail _ hs ih =>
      obtain ⟨cs, os, hcs, hos, hdb, hnew⟩ := ih
      obtain ⟨cs', os', hcs', hos', hdb', hmet, -⟩ := step_history hs
      refine ⟨cs ++ cs', os ++ os', by rw [hcs', hcs, List.append_assoc],
        by rw [hos', hos, List.append_assoc], ?_, fun o ho => ?_⟩
      · rw [hdb', hdb, List.flatMap_append, Engine.applyAll_append]
      · rcases List.mem_append.mp ho with ho | ho
        · exact hnew o ho
        · rw [(hmet o ho).2.2, hcs, List.length_append]
          exact Nat.le_add_right _ _

/-! ## Whose history it is -/

/-- Session ids and tags are used consistently. -/
structure Signed (w : World Db Write Res Aux Stmt Inp ε Tag α Ans) : Prop where
  born : ∀ i x, w.sess i = some x → i < w.next
  commits : ∀ c ∈ w.store.commits, c.sid < w.next
  trace : ∀ o ∈ w.store.trace, o.sid < w.next
  /-- The commits and statements of a live session carry its tag. -/
  tags : ∀ i t p, w.sess i = some (t, p) →
    (∀ c ∈ w.store.commits, c.sid = i → c.tag = t) ∧ ∀ o ∈ w.store.trace, o.sid = i → o.tag = t

omit [DecidableEq Res] in
/-- A session keeps its tag, or is new. -/
theorem Signed.move (h : Signed w) {cs : List (Commit Write Tag)}
    {os : List (Obs Db Aux Stmt Inp Tag)}
    (hcs : w₁.store.commits = w.store.commits ++ cs) (hos : w₁.store.trace = w.store.trace ++ os)
    (hc : ∀ c ∈ cs, ∃ p, w.sess c.sid = some (c.tag, p))
    (ho : ∀ o ∈ os, ∃ p, w.sess o.sid = some (o.tag, p)) (hn : w.next ≤ w₁.next)
    (hsess : ∀ i t p, w₁.sess i = some (t, p) → (∃ p', w.sess i = some (t, p'))
      ∨ (w.next ≤ i ∧ i < w₁.next)) : Signed w₁ := by
  refine ⟨fun i x hx => ?_, fun c hmem => ?_, fun o hmem => ?_, fun i t p hp =>
    ⟨fun c hmem hi => ?_,
    fun o hmem hi => ?_⟩⟩
  · rcases hsess i x.1 x.2 hx with ⟨p', hp'⟩ | ⟨-, hlt⟩
    · exact Nat.lt_of_lt_of_le (h.born i _ hp') hn
    · exact hlt
  · rw [hcs, List.mem_append] at hmem
    rcases hmem with hmem | hmem
    · exact Nat.lt_of_lt_of_le (h.commits c hmem) hn
    · obtain ⟨p, hp⟩ := hc c hmem
      exact Nat.lt_of_lt_of_le (h.born _ _ hp) hn
  · rw [hos, List.mem_append] at hmem
    rcases hmem with hmem | hmem
    · exact Nat.lt_of_lt_of_le (h.trace o hmem) hn
    · obtain ⟨p, hp⟩ := ho o hmem
      exact Nat.lt_of_lt_of_le (h.born _ _ hp) hn
  · subst hi
    rw [hcs, List.mem_append] at hmem
    rcases hsess _ t p hp with ⟨p', hp'⟩ | ⟨hge, -⟩
    · rcases hmem with hmem | hmem
      · exact (h.tags _ t p' hp').1 c hmem rfl
      · obtain ⟨p'', hp''⟩ := hc c hmem
        rw [hp'] at hp''
        injection hp'' with he
        exact (congrArg Prod.fst he).symm
    · rcases hmem with hmem | hmem
      · exact absurd (h.commits c hmem) (Nat.not_lt.mpr hge)
      · obtain ⟨p'', hp''⟩ := hc c hmem
        exact absurd (h.born _ _ hp'') (Nat.not_lt.mpr hge)
  · subst hi
    rw [hos, List.mem_append] at hmem
    rcases hsess _ t p hp with ⟨p', hp'⟩ | ⟨hge, -⟩
    · rcases hmem with hmem | hmem
      · exact (h.tags _ t p' hp').2 o hmem rfl
      · obtain ⟨p'', hp''⟩ := ho o hmem
        rw [hp'] at hp''
        injection hp'' with he
        exact (congrArg Prod.fst he).symm
    · rcases hmem with hmem | hmem
      · exact absurd (h.trace o hmem) (Nat.not_lt.mpr hge)
      · obtain ⟨p'', hp''⟩ := ho o hmem
        exact absurd (h.born _ _ hp'') (Nat.not_lt.mpr hge)

/-- The sessions after a move: the old ones under their tags, and a new one. -/
theorem step_sess (h : S.step w a = some w₁) :
    w.next ≤ w₁.next ∧ ∀ i t p, w₁.sess i = some (t, p) → (∃ p', w.sess i = some (t, p'))
      ∨ (w.next ≤ i ∧ i < w₁.next) := by
  have hsame : ∀ (j : Sid) (t : Tag) (p p' : Prog Stmt Ans ε α), w.sess j = some (t, p) →
      ∀ i t' p'', upd w.sess j (some (t, p')) i = some (t', p'')
        → ∃ p', w.sess i = some (t', p') := by
    intro j t p p' hj i t' p'' hi
    by_cases he : i = j
    · subst he
      rw [upd_self] at hi
      cases hi
      exact ⟨p, hj⟩
    · rw [upd_ne _ _ he] at hi
      exact ⟨p'', hi⟩
  rcases step_cases h with ⟨t, -, rfl⟩ | ⟨i, inp, t, q, k, r, s', -, hsess, -, rfl⟩
    | ⟨i, inp, t, x, p, -, hsess, -, rfl⟩ | ⟨i, x, -, -, rfl⟩ | ⟨x, o, -, -, rfl⟩
  · refine ⟨Nat.le_succ _, fun j t' p hj => ?_⟩
    by_cases he : j = w.next
    · exact .inr ⟨he ▸ Nat.le_refl _, he ▸ Nat.lt_succ_self _⟩
    · exact .inl ⟨p, by rw [← hj]; exact (upd_ne _ _ he).symm⟩
  · exact ⟨Nat.le_refl _, fun j t' p hj => .inl (hsame i t _ _ hsess j t' p hj)⟩
  · exact ⟨Nat.le_refl _, fun j t' p hj => .inl (hsame i t _ _ hsess j t' p hj)⟩
  · refine ⟨Nat.le_refl _, fun j t' p hj => .inl ⟨p, ?_⟩⟩
    by_cases he : j = i
    · subst he
      simp only [upd_self] at hj
      exact absurd hj (by simp)
    · simp only [upd_ne _ _ he] at hj
      exact hj
  · exact ⟨Nat.le_refl _, fun j t' p hj => .inl ⟨p, hj⟩⟩

/-- A live session was live before, and had something to do, or has just been started. -/
theorem step_live (h : S.step w a = some w₁) {i : Sid} {t : Tag} {p : Prog Stmt Ans ε α}
    (hp : w₁.sess i = some (t, p)) :
    (∃ p', w.sess i = some (t, p') ∧ ((∃ x, p' = .raise x) → p' = p))
      ∨ (i = w.next ∧ a = .spawn t) := by
  -- the session that moves, and the rest
  have hupd : ∀ {j : Sid} {p₀ p₁ : Prog Stmt Ans ε α} {t₀ : Tag}, w.sess j = some (t₀, p₀) →
      (∀ x, p₀ ≠ .raise x) → upd w.sess j (some (t₀, p₁)) i = some (t, p) →
      ∃ p', w.sess i = some (t, p') ∧ ((∃ x, p' = .raise x) → p' = p) := by
    intro j p₀ p₁ t₀ hj hne hi
    by_cases he : i = j
    · subst he
      rw [upd_self] at hi
      cases hi
      exact ⟨p₀, hj, fun ⟨x, hx⟩ => absurd hx (hne x)⟩
    · rw [upd_ne _ _ he] at hi
      exact ⟨p, hi, fun _ => rfl⟩
  rcases step_cases h with ⟨t', rfl, rfl⟩ | ⟨j, inp, t', q, k, r, s', -, hj, -, rfl⟩
    | ⟨j, inp, t', x, p', -, hj, -, rfl⟩ | ⟨j, x, -, -, rfl⟩ | ⟨x, o, -, -, rfl⟩
  · by_cases he : i = w.next
    · subst he
      simp only [upd_self] at hp
      cases hp
      exact .inr ⟨rfl, rfl⟩
    · simp only [upd_ne _ _ he] at hp
      exact .inl ⟨p, hp, fun _ => rfl⟩
  · exact .inl (hupd hj (by simp) hp)
  · exact .inl (hupd hj (by simp) hp)
  · by_cases he : i = j
    · subst he
      simp only [upd_self] at hp
      exact absurd hp (by simp)
    · simp only [upd_ne _ _ he] at hp
      exact .inl ⟨p, hp, fun _ => rfl⟩
  · exact .inl ⟨p, hp, fun _ => rfl⟩

theorem Reachable.signed {db : Db} {aux : Aux} (h : Reachable S (Store.init db aux) w) :
    Signed w := by
  induction h with
  | init =>
      refine ⟨fun i x hx => ?_, fun c hc => ?_, fun o ho => ?_, fun i t p hp => ?_⟩
      · exact absurd hx (by simp [World.init])
      · exact absurd hc (by simp [World.init, Store.init])
      · exact absurd ho (by simp [World.init, Store.init])
      · exact absurd hp (by simp [World.init])
  | tail _ hs ih =>
      obtain ⟨cs, os, hcs, hos, -, -, hc, ho⟩ := step_history hs
      obtain ⟨hn, hsess⟩ := step_sess hs
      exact ih.move hcs hos hc ho hn hsess

/-- The statements of a session all carry one tag. -/
theorem Reachable.same_tag {db : Db} {aux : Aux} (h : Reachable S (Store.init db aux) w)
    {o o' : Obs Db Aux Stmt Inp Tag} (ho : o ∈ w.store.trace) (ho' : o' ∈ w.store.trace)
    (hsid : o.sid = o'.sid) : o.tag = o'.tag := by
  induction h with
  | init => exact absurd ho (by simp [World.init, Store.init])
  | tail hr hs ih =>
      rename_i w₁ w₂ a
      obtain ⟨cs, os, -, hos, -, -, -, hlive⟩ := step_history hs
      rw [hos, List.mem_append] at ho ho'
      -- a new statement carries the tag its session is live under
      have hnew : ∀ {o o' : Obs Db Aux Stmt Inp Tag}, o ∈ os → o'.sid = o.sid →
          o' ∈ w₁.store.trace ∨ o' ∈ os → o'.tag = o.tag := by
        intro o o' ho hsid ho'
        obtain ⟨p, hp⟩ := hlive o ho
        rcases ho' with ho' | ho'
        · exact (hr.signed.tags _ _ p hp).2 o' ho' hsid
        · obtain ⟨p', hp'⟩ := hlive o' ho'
          rw [hsid, hp] at hp'
          injection hp' with he
          exact (congrArg Prod.fst he).symm
      rcases ho with ho | ho
      · rcases ho' with ho' | ho'
        · exact ih ho ho'
        · exact hnew ho' hsid (.inl ho)
      · exact (hnew ho hsid.symm ho').symm

/-! ## What sessions say -/

/-- **Every statement of a run is one its session's programs can issue.** -/
theorem Reachable.uses {P : Tag → Stmt → Prop} (h : Reachable S s₀ w)
    (h₀ : ∀ o ∈ s₀.trace, P o.tag o.stmt) (hstart : ∀ t, (S.start t).Uses (P t))
    (hagain : ∀ t p, S.again t = some p → p.Uses (P t)) :
    (∀ i t p, w.sess i = some (t, p) → p.Uses (P t)) ∧ ∀ o ∈ w.store.trace, P o.tag o.stmt := by
  induction h with
  | init => exact ⟨fun i t p hp => absurd hp (by simp [World.init]), h₀⟩
  | tail _ hs ih =>
      obtain ⟨hsess, htrace⟩ := ih
      -- only the session that moves has a new program
      have hupd : ∀ {f : Sid → Option (Tag × Prog Stmt Ans ε α)} {i : Sid}
          {x : Option (Tag × Prog Stmt Ans ε α)},
          (∀ j t p, f j = some (t, p) → p.Uses (P t)) → (∀ t p, x = some (t, p) → p.Uses (P t)) →
          ∀ j t p, upd f i x j = some (t, p) → p.Uses (P t) := by
        intro f i x hf hx j t p hp
        by_cases hj : j = i
        · subst hj
          rw [upd_self] at hp
          exact hx t p hp
        · rw [upd_ne _ _ hj] at hp
          exact hf j t p hp
      rcases step_cases hs with ⟨t, -, rfl⟩ | ⟨i, inp, t, q, k, r, s', -, hi, hx, rfl⟩
        | ⟨i, inp, t, x, p, -, hi, hag, rfl⟩ | ⟨i, x, -, -, rfl⟩ | ⟨x, o, -, -, rfl⟩
      · refine ⟨hupd hsess (fun t' p hp => ?_), htrace⟩
        cases hp
        exact hstart t
      · obtain ⟨hq, hk⟩ := hsess i t _ hi
        refine ⟨hupd hsess (fun t' p hp => ?_), fun o ho => ?_⟩
        · cases hp
          exact hk r
        · have ho : o ∈ s'.trace := ho
          rw [exec_trace hx, List.mem_append] at ho
          rcases ho with ho | ho
          · exact htrace o ho
          · rw [List.mem_singleton.mp ho]
            exact hq
      · refine ⟨hupd hsess (fun t' p' hp => ?_), htrace⟩
        cases hp
        exact hagain t p hag
      · exact ⟨hupd hsess (fun t p hp => absurd hp (by simp)), htrace⟩
      · exact ⟨hsess, htrace⟩

/-! ## Runs under a rule -/

/-- Worlds that runs lead to in which every move keeps a rule. -/
inductive Guided (S : System Db Write Res Aux Stmt Inp Env ε Tag α Ans)
    (rule : World Db Write Res Aux Stmt Inp ε Tag α Ans → Action Tag Inp Env → Prop)
    (s₀ : Store Db Write Res Aux Stmt Inp Tag) :
    World Db Write Res Aux Stmt Inp ε Tag α Ans → Prop where
  | init : Guided S rule s₀ (World.init s₀)
  | tail {w w' : World Db Write Res Aux Stmt Inp ε Tag α Ans} {a : Action Tag Inp Env} :
      Guided S rule s₀ w → rule w a → S.step w a = some w' → Guided S rule s₀ w'

theorem Guided.reachable {rule : World Db Write Res Aux Stmt Inp ε Tag α Ans
    → Action Tag Inp Env → Prop}
    (h : Guided S rule s₀ w) : Reachable S s₀ w := by
  induction h with
  | init => exact .init
  | tail _ _ hs ih => exact ih.tail hs

/-- Moves that keep a rule keep a weaker one. -/
theorem Guided.mono {rule rule' : World Db Write Res Aux Stmt Inp ε Tag α Ans
    → Action Tag Inp Env → Prop}
    (hle : ∀ w a, rule w a → rule' w a) (h : Guided S rule s₀ w) : Guided S rule' s₀ w := by
  induction h with
  | init => exact .init
  | tail _ hrule hs ih => exact ih.tail (hle _ _ hrule) hs

/-- **What a rule asks of a new session** is so of every session, commit and statement of a run, if
it stays so. -/
theorem Guided.spawned {rule : World Db Write Res Aux Stmt Inp ε Tag α Ans
    → Action Tag Inp Env → Prop}
    {P : World Db Write Res Aux Stmt Inp ε Tag α Ans → Tag → Prop}
    (hrule : ∀ w t, rule w (.spawn t) → P w t)
    (hstay : ∀ w a w' t, S.step w a = some w' → P w t → P w' t) {db : Db} {aux : Aux}
    (h : Guided S rule (Store.init db aux) w) :
    (∀ i t p, w.sess i = some (t, p) → P w t) ∧ (∀ c ∈ w.store.commits, P w c.tag)
      ∧ ∀ o ∈ w.store.trace, P w o.tag := by
  induction h with
  | init =>
      refine ⟨fun i t p hp => ?_, fun c hc => ?_, fun o ho => ?_⟩
      · exact absurd hp (by simp [World.init])
      · exact absurd hc (by simp [World.init, Store.init])
      · exact absurd ho (by simp [World.init, Store.init])
  | tail _ hok hs ih =>
      obtain ⟨hsess, hcommits, htrace⟩ := ih
      obtain ⟨cs, os, hcs, hos, -, -, hlive, hran⟩ := step_history hs
      refine ⟨fun i t p hp => ?_, fun c hc => ?_, fun o ho => ?_⟩
      · rcases step_live hs hp with ⟨p', hp', -⟩ | ⟨-, rfl⟩
        · exact hstay _ _ _ _ hs (hsess i t p' hp')
        · exact hstay _ _ _ _ hs (hrule _ _ hok)
      · rw [hcs, List.mem_append] at hc
        rcases hc with hc | hc
        · exact hstay _ _ _ _ hs (hcommits c hc)
        · obtain ⟨p, hp⟩ := hlive c hc
          exact hstay _ _ _ _ hs (hsess _ _ _ hp)
      · rw [hos, List.mem_append] at ho
        rcases ho with ho | ho
        · exact hstay _ _ _ _ hs (htrace o ho)
        · obtain ⟨p, hp⟩ := hran o ho
          exact hstay _ _ _ _ hs (hsess _ _ _ hp)

/-- **A session that is never stuck comes to its end**: under a rule that always allows some next
statement of it, it can be left to run until it has none. -/
theorem Guided.finish {rule : World Db Write Res Aux Stmt Inp ε Tag α Ans
    → Action Tag Inp Env → Prop}
    {P : Stmt → Prop} {i : Sid} {t : Tag} {p : Prog Stmt Ans ε α} (h : Guided S rule s₀ w)
    (hi : w.sess i = some (t, p)) (hp : p.Uses P)
    (hstep : ∀ w' q k, Guided S rule s₀ w' → w'.sess i = some (t, .call q k) → P q →
      ∃ inp w'', rule w' (.exec i inp) ∧ S.step w' (.exec i inp) = some w'') :
    ∃ w' r, Guided S rule s₀ w' ∧ Later S w w' ∧ w'.sess i = some (t, Prog.ofExcept r)
      ∧ w'.next = w.next := by
  induction p generalizing w with
  | ret a => exact ⟨w, .ok a, h, .refl, hi, rfl⟩
  | raise e => exact ⟨w, .error e, h, .refl, hi, rfl⟩
  | call q k ih =>
      obtain ⟨inp, w₁, hrule, hs⟩ := hstep w q k h hi hp.1
      obtain ⟨r, hi₁, hnext⟩ : ∃ r, w₁.sess i = some (t, k r) ∧ w₁.next = w.next := by
        rcases step_cases hs with ⟨t', ha, -⟩ | ⟨j, inp', t', q', k', r, s', ha, hj, -, rfl⟩
          | ⟨j, inp', t', x, p', ha, hj, -⟩ | ⟨j, x, ha, -⟩ | ⟨x, o, ha, -⟩
        · exact absurd ha (by simp)
        · cases ha
          cases hi.symm.trans hj
          exact ⟨r, upd_self _ _ _, rfl⟩
        · cases ha
          exact absurd (hi.symm.trans hj) (by simp)
        · exact absurd ha (by simp)
        · exact absurd ha (by simp)
      obtain ⟨w₂, r', hg, hl, hend, hsame⟩ := ih r (h.tail hrule hs) hi₁ (hp.2 r)
      exact ⟨w₂, r', hg, (Later.refl.tail hs).trans hl, hend, hsame.trans hnext⟩

/-- Make the moves of a list as long as `ok` allows them. -/
def System.guide (S : System Db Write Res Aux Stmt Inp Env ε Tag α Ans)
    (ok : World Db Write Res Aux Stmt Inp ε Tag α Ans → Action Tag Inp Env → Bool)
    (w : World Db Write Res Aux Stmt Inp ε Tag α Ans) :
    List (Action Tag Inp Env) → Option (World Db Write Res Aux Stmt Inp ε Tag α Ans)
  | [] => some w
  | a :: as => if ok w a then (S.step w a).bind (fun w' => S.guide ok w' as) else none

/-- Moves that pass a sound test lead to a run under the rule. -/
theorem Guided.guide {rule : World Db Write Res Aux Stmt Inp ε Tag α Ans
    → Action Tag Inp Env → Prop}
    {ok : World Db Write Res Aux Stmt Inp ε Tag α Ans → Action Tag Inp Env → Bool}
    (hok : ∀ {w a}, Reachable S s₀ w → ok w a = true → rule w a) (h : Guided S rule s₀ w)
    {as : List (Action Tag Inp Env)} (hr : S.guide ok w as = some w₁) : Guided S rule s₀ w₁ := by
  induction as generalizing w with
  | nil =>
      injection hr with hr
      subst hr
      exact h
  | cons a as ih =>
      rw [System.guide] at hr
      split at hr
      · rename_i ha
        obtain ⟨w', hs, hr⟩ := Option.bind_eq_some_iff.mp hr
        exact ih (h.tail (hok h.reachable ha) hs) hr
      · exact absurd hr (by simp)

end Isolation
