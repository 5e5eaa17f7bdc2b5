import WalletLedger.Isolation.Store

/-!
# Rely and guarantee for sessions

Any number of sessions run their programs against one store, one statement at a
time, in any order. To reason about one of them without enumerating the others,
a `Contract` fixes what every session promises about each of its statements:
that the store moves as every other session `j` relies on (`rely j`), and that
`inv` holds again.

`Safe` is the weakest precondition of a program under interference. Before every
statement the others may have run, within the contract and without touching what
this session has locked; after it the contract must be met and the rest of the
program must be safe. It is by recursion on the program, so proving a program
safe is executing it symbolically, once.

`Sound.reachable` closes the circle: if every program the system can start is
safe from a fresh session, then in every reachable world the contract holds and
every session that has ended satisfies its postcondition.
-/

namespace Isolation

variable {Db Write Res Aux Stmt Inp Env ε Tag α β : Type} {Ans : Stmt → Type}

/-! ## Systems and their worlds -/

/-- An engine together with the programs that run on it. -/
structure System (Db Write Res Aux Stmt Inp Env ε Tag α : Type) (Ans : Stmt → Type)
    extends Engine Db Write Res Aux Stmt Inp Env ε Ans where
  /-- The program a tag stands for. -/
  start : Tag → Prog Stmt Ans ε α
  /-- The body a looping tag goes back to whenever it has returned. -/
  again : Tag → Option (Prog Stmt Ans ε α)

/-- The store and every session's remaining program. -/
structure World (Db Write Res Aux Stmt Inp ε Tag α : Type) (Ans : Stmt → Type) where
  /-- The shared store. -/
  store : Store Db Write Res Aux Stmt Inp Tag
  /-- What each session is and has left to do. -/
  sess : Sid → Option (Tag × Prog Stmt Ans ε α)
  /-- The next unused session id. -/
  next : Sid

/-- One move of the world. -/
inductive Action (Tag Inp Env : Type) where
  /-- A new session starts running `t`. -/
  | spawn (t : Tag)
  /-- Session `i` executes its next statement. -/
  | exec (i : Sid) (inp : Inp)
  /-- Session `i` dies. -/
  | crash (i : Sid)
  /-- The world outside moves. -/
  | env (x : Env)

/-- Nothing has been started yet. -/
def World.init (s : Store Db Write Res Aux Stmt Inp Tag) :
    World Db Write Res Aux Stmt Inp ε Tag α Ans :=
  { store := s, sess := fun _ => none, next := 0 }

/-- Take one move; `none` if it is not possible now. -/
def System.step [DecidableEq Res] (S : System Db Write Res Aux Stmt Inp Env ε Tag α Ans)
    (w : World Db Write Res Aux Stmt Inp ε Tag α Ans) :
    Action Tag Inp Env → Option (World Db Write Res Aux Stmt Inp ε Tag α Ans)
  | .spawn t =>
      some { w with sess := upd w.sess w.next (some (t, S.start t)), next := w.next + 1 }
  | .exec i inp =>
      match w.sess i with
      | some (t, .call q k) =>
          match exec S.toEngine i t q inp w.store with
          | some (r, s') => some { w with store := s', sess := upd w.sess i (some (t, k r)) }
          | none => none
      | some (t, .ret _) =>
          match S.again t with
          | some p => some { w with sess := upd w.sess i (some (t, p)) }
          | none => none
      | _ => none
  | .crash i =>
      match w.sess i with
      | some _ => some { w with store := w.store.drop S.toEngine i, sess := upd w.sess i none }
      | none => none
  | .env x =>
      match S.env x w.store.aux with
      | some a => some { w with store := { w.store with aux := a } }
      | none => none

/-- Take the moves of a list in order. -/
def System.runs [DecidableEq Res] (S : System Db Write Res Aux Stmt Inp Env ε Tag α Ans)
    (w : World Db Write Res Aux Stmt Inp ε Tag α Ans) :
    List (Action Tag Inp Env) → Option (World Db Write Res Aux Stmt Inp ε Tag α Ans)
  | [] => some w
  | a :: as => (S.step w a).bind (S.runs · as)

/-- Worlds some run leads to from the store `s₀`. -/
inductive Reachable [DecidableEq Res] (S : System Db Write Res Aux Stmt Inp Env ε Tag α Ans)
    (s₀ : Store Db Write Res Aux Stmt Inp Tag) :
    World Db Write Res Aux Stmt Inp ε Tag α Ans → Prop where
  /-- The initial world. -/
  | init : Reachable S s₀ (World.init s₀)
  /-- One more move. -/
  | tail {w w' : World Db Write Res Aux Stmt Inp ε Tag α Ans} {a : Action Tag Inp Env} :
      Reachable S s₀ w → S.step w a = some w' → Reachable S s₀ w'

section

variable [DecidableEq Res] {S : System Db Write Res Aux Stmt Inp Env ε Tag α Ans}
  {s₀ : Store Db Write Res Aux Stmt Inp Tag}
  {w w' : World Db Write Res Aux Stmt Inp ε Tag α Ans}

/-- Every list of moves that goes through ends in a reachable world. -/
theorem Reachable.runs (h : Reachable S s₀ w) {as : List (Action Tag Inp Env)}
    (hr : S.runs w as = some w') : Reachable S s₀ w' := by
  induction as generalizing w with
  | nil => injection hr with hr; subst hr; exact h
  | cons a as ih =>
      rw [System.runs] at hr
      cases hs : S.step w a with
      | none => rw [hs] at hr; exact absurd hr (by simp)
      | some w₁ => rw [hs] at hr; exact ih (h.tail hs) hr

end

/-! ## Contracts -/

/-- What the sessions of a system promise one another, and what each leaves behind. -/
structure Contract (Db Write Res Aux Stmt Inp ε Tag α : Type) where
  /-- How the store may move while a session is not looking. -/
  rely : Sid → Store Db Write Res Aux Stmt Inp Tag → Store Db Write Res Aux Stmt Inp Tag → Prop
  /-- What holds at every moment. -/
  inv : Store Db Write Res Aux Stmt Inp Tag → Prop
  /-- What holds once a session has ended. -/
  post : Sid → Tag → Except ε α → Store Db Write Res Aux Stmt Inp Tag → Prop

/-- Interference, as session `i` sees it. -/
structure Rely (E : Engine Db Write Res Aux Stmt Inp Env ε Ans)
    (C : Contract Db Write Res Aux Stmt Inp ε Tag α) (i : Sid)
    (s s' : Store Db Write Res Aux Stmt Inp Tag) : Prop where
  /-- Its own things are untouched. -/
  frame : Frame E i s s'
  /-- The store moved within the contract. -/
  rely : C.rely i s s'
  /-- The invariant holds. -/
  inv : C.inv s'

/-- What a statement of session `i` owes the others. -/
structure Guar (E : Engine Db Write Res Aux Stmt Inp Env ε Ans)
    (C : Contract Db Write Res Aux Stmt Inp ε Tag α) (i : Sid)
    (s s' : Store Db Write Res Aux Stmt Inp Tag) : Prop where
  /-- The store moved as the others rely on. -/
  rely : ∀ j, j ≠ i → C.rely j s s'
  /-- The invariant holds again. -/
  inv : C.inv s'

/-- The weakest precondition of a program of session `i` under interference. -/
def Safe [DecidableEq Res] (E : Engine Db Write Res Aux Stmt Inp Env ε Ans)
    (C : Contract Db Write Res Aux Stmt Inp ε Tag α) (i : Sid) (t : Tag)
    (Q : Except ε β → Store Db Write Res Aux Stmt Inp Tag → Prop) :
    Prog Stmt Ans ε β → Store Db Write Res Aux Stmt Inp Tag → Prop
  | .ret a, s => ∀ s', Rely E C i s s' → Q (.ok a) s'
  | .raise e, s => ∀ s', Rely E C i s s' → Q (.error e) s'
  | .call q k, s => ∀ s' inp r s'', Rely E C i s s' → exec E i t q inp s' = some (r, s'') →
      Guar E C i s' s'' ∧ Safe E C i t Q (k r) s''

/-- A contract whose `rely` is a preorder for every session. -/
structure Contract.Preorder (C : Contract Db Write Res Aux Stmt Inp ε Tag α) : Prop where
  refl : ∀ i s, C.rely i s s
  trans : ∀ {i s₁ s₂ s₃}, C.rely i s₁ s₂ → C.rely i s₂ s₃ → C.rely i s₁ s₃

section rules

variable {E : Engine Db Write Res Aux Stmt Inp Env ε Ans}
  {C : Contract Db Write Res Aux Stmt Inp ε Tag α} {i : Sid} {t : Tag} {γ : Type}
  {Q : Except ε β → Store Db Write Res Aux Stmt Inp Tag → Prop}
  {Q' : Except ε γ → Store Db Write Res Aux Stmt Inp Tag → Prop}
  {s s' s'' : Store Db Write Res Aux Stmt Inp Tag}

theorem Rely.trans (hC : C.Preorder) (h₁ : Rely E C i s s') (h₂ : Rely E C i s' s'') :
    Rely E C i s s'' :=
  ⟨h₁.frame.trans h₂.frame, hC.trans h₁.rely h₂.rely, h₂.inv⟩

theorem Rely.refl (hC : C.Preorder) (h : C.inv s) : Rely E C i s s :=
  ⟨Frame.refl, hC.refl i s, h⟩

/-- An assertion that interference preserves. -/
def Stable (E : Engine Db Write Res Aux Stmt Inp Env ε Ans)
    (C : Contract Db Write Res Aux Stmt Inp ε Tag α) (i : Sid)
    (A : Store Db Write Res Aux Stmt Inp Tag → Prop) : Prop :=
  ∀ s s', A s → Rely E C i s s' → A s'

theorem Stable.and {A B : Store Db Write Res Aux Stmt Inp Tag → Prop} (hA : Stable E C i A)
    (hB : Stable E C i B) : Stable E C i (fun s => A s ∧ B s) :=
  fun s s' h hr => ⟨hA s s' h.1 hr, hB s s' h.2 hr⟩

theorem Stable.const (P : Prop) : Stable E C i (fun _ => P) := fun _ _ h _ => h

theorem Stable.ex {A : β → Store Db Write Res Aux Stmt Inp Tag → Prop}
    (hA : ∀ b, Stable E C i (A b)) : Stable E C i (fun s => ∃ b, A b s) :=
  fun s s' ⟨b, h⟩ hr => ⟨b, hA b s s' h hr⟩

variable [DecidableEq Res]

/-- Safety survives interference. -/
theorem Safe.rely (hC : C.Preorder) {p : Prog Stmt Ans ε β} (h : Safe E C i t Q p s)
    (hr : Rely E C i s s') : Safe E C i t Q p s' := by
  cases p with
  | ret a => intro s'' h'; exact h s'' (hr.trans hC h')
  | raise e => intro s'' h'; exact h s'' (hr.trans hC h')
  | call q k => intro s₁ inp r s₂ h₁ hx; exact h s₁ inp r s₂ (hr.trans hC h₁) hx

/-- Weaken the postcondition. -/
theorem Safe.mono {p : Prog Stmt Ans ε β}
    {Q₂ : Except ε β → Store Db Write Res Aux Stmt Inp Tag → Prop}
    (h : Safe E C i t Q p s) (hQ : ∀ r s', Q r s' → Q₂ r s') : Safe E C i t Q₂ p s := by
  induction p generalizing s with
  | ret a => intro s' hr; exact hQ _ _ (h s' hr)
  | raise e => intro s' hr; exact hQ _ _ (h s' hr)
  | call q k ih =>
      intro s₁ inp r s₂ h₁ hx
      obtain ⟨hg, hk⟩ := h s₁ inp r s₂ h₁ hx
      exact ⟨hg, ih r hk⟩

/-! ### Triples -/

/-- From wherever `A` holds, the program of session `i` is safe and ends in `Q`. -/
def Triple (E : Engine Db Write Res Aux Stmt Inp Env ε Ans)
    (C : Contract Db Write Res Aux Stmt Inp ε Tag α) (i : Sid) (t : Tag)
    (A : Store Db Write Res Aux Stmt Inp Tag → Prop) (p : Prog Stmt Ans ε β)
    (Q : Except ε β → Store Db Write Res Aux Stmt Inp Tag → Prop) : Prop :=
  ∀ s, C.inv s → A s → Safe E C i t Q p s

namespace Triple

variable {A A' : Store Db Write Res Aux Stmt Inp Tag → Prop}
  {Q₂ : Except ε β → Store Db Write Res Aux Stmt Inp Tag → Prop}

theorem ret {a : β} (hA : Stable E C i A) (h : ∀ s, C.inv s → A s → Q (.ok a) s) :
    Triple E C i t A (.ret a) Q :=
  fun s _ ha s' hr => h s' hr.inv (hA s s' ha hr)

theorem raise {e : ε} (hA : Stable E C i A) (h : ∀ s, C.inv s → A s → Q (.error e) s) :
    Triple E C i t A (.raise e) Q :=
  fun s _ ha s' hr => h s' hr.inv (hA s s' ha hr)

/-- **The sequence rule**, for both ways the first program can end. -/
theorem handle (hC : C.Preorder) {p : Prog Stmt Ans ε β} {f : Except ε β → Prog Stmt Ans ε γ}
    (hp : Triple E C i t A p Q) (hf : ∀ r, Triple E C i t (Q r) (f r) Q') :
    Triple E C i t A (p.handle f) Q' := by
  intro s hi ha
  have h : Safe E C i t Q p s := hp s hi ha
  clear hp ha
  induction p generalizing s with
  | ret a => exact hf _ s hi (h s (Rely.refl hC hi))
  | raise e => exact hf _ s hi (h s (Rely.refl hC hi))
  | call q k ih =>
      intro s₁ inp r s₂ h₁ hx
      obtain ⟨hg, hk⟩ := h s₁ inp r s₂ h₁ hx
      exact ⟨hg, ih r s₂ hg.inv hk⟩

/-- Sequencing: an exception of the first program is the caller's as well. -/
theorem bind (hC : C.Preorder) {p : Prog Stmt Ans ε β} {f : β → Prog Stmt Ans ε γ}
    (hp : Triple E C i t A p Q) (hf : ∀ a, Triple E C i t (Q (.ok a)) (f a) Q')
    (he : ∀ e, Triple E C i t (Q (.error e)) (.raise e) Q') :
    Triple E C i t A (p >>= f) Q' := by
  refine handle hC hp (fun r => ?_)
  cases r with
  | ok a => exact hf a
  | error e => exact he e

theorem conseq {p : Prog Stmt Ans ε β} (h : Triple E C i t A p Q)
    (hA : ∀ s, C.inv s → A' s → A s) (hQ : ∀ r s, Q r s → Q₂ r s) :
    Triple E C i t A' p Q₂ :=
  fun s hi ha => (h s hi (hA s hi ha)).mono hQ

theorem map {p : Prog Stmt Ans ε β} {f : β → γ}
    (hp : Triple E C i t A p (fun r s => Q' (r.map f) s)) : Triple E C i t A (f <$> p) Q' := by
  intro s hi ha
  have h : Safe E C i t (fun r s => Q' (r.map f) s) p s := hp s hi ha
  clear hp hi ha
  induction p generalizing s with
  | ret a => exact h
  | raise e => exact h
  | call q k ih =>
      intro s₁ inp r s₂ h₁ hx
      obtain ⟨hg, hk⟩ := h s₁ inp r s₂ h₁ hx
      exact ⟨hg, ih r s₂ hk⟩

/-- One statement: every outcome meets the contract and the postcondition. -/
theorem perform {q : Stmt} {Q : Except ε (Ans q) → Store Db Write Res Aux Stmt Inp Tag → Prop}
    (hA : Stable E C i A) (hQ : ∀ r, Stable E C i (Q r))
    (hx : ∀ s inp r s', C.inv s → A s → exec E i t q inp s = some (r, s') →
      Guar E C i s s' ∧ Q r s') :
    Triple E C i t A (Prog.perform q) Q := by
  intro s _ ha s₁ inp r s₂ h₁ he
  obtain ⟨hg, hq⟩ := hx s₁ inp r s₂ h₁.inv (hA s s₁ ha h₁) he
  refine ⟨hg, ?_⟩
  cases r with
  | ok a => intro s' hr; exact hQ _ _ _ hq hr
  | error e => intro s' hr; exact hQ _ _ _ hq hr

/-- **The vocabulary rule.** A program that issues only statements which keep an
assertion keeps it, whatever it does with the answers. -/
theorem uses {P : Stmt → Prop} {p : Prog Stmt Ans ε β} (hp : p.Uses P) (hA : Stable E C i A)
    (hx : ∀ q, P q → ∀ s inp r s', C.inv s → A s → exec E i t q inp s = some (r, s') →
      Guar E C i s s' ∧ A s') :
    Triple E C i t A p (fun _ => A) := by
  intro s hi ha
  induction p generalizing s with
  | ret a => intro s' hr; exact hA s s' ha hr
  | raise e => intro s' hr; exact hA s s' ha hr
  | call q k ih =>
      intro s₁ inp r s₂ h₁ he
      obtain ⟨hg, ha'⟩ := hx q hp.1 s₁ inp r s₂ h₁.inv (hA s s₁ ha h₁) he
      exact ⟨hg, ih r (hp.2 r) s₂ hg.inv ha'⟩

end Triple

end rules

/-! ## Soundness -/

/-- The obligations of a contract over a system. -/
structure Sound [DecidableEq Res] (S : System Db Write Res Aux Stmt Inp Env ε Tag α Ans)
    (C : Contract Db Write Res Aux Stmt Inp ε Tag α)
    (s₀ : Store Db Write Res Aux Stmt Inp Tag) : Prop where
  pre : C.Preorder
  /-- The run starts with no session and the invariant in place. -/
  init : C.inv s₀ ∧ ∀ i, Fresh i s₀
  /-- Every program is safe in a fresh session. -/
  start : ∀ i t s, C.inv s → Fresh i s →
    Safe S.toEngine C i t (C.post i t) (S.start t) s
  /-- Every loop body is safe where the previous round ended. -/
  again : ∀ i t p a s, S.again t = some p → C.inv s → C.post i t (.ok a) s →
    Safe S.toEngine C i t (C.post i t) p s
  /-- A session may die. -/
  crash : ∀ i s, C.inv s →
    (∀ j, j ≠ i → C.rely j s (s.drop S.toEngine i)) ∧ C.inv (s.drop S.toEngine i)
  /-- The outside may move. -/
  env : ∀ x a s, C.inv s → S.env x s.aux = some a →
    (∀ j, C.rely j s { s with aux := a }) ∧ C.inv { s with aux := a }

/-- What a contract buys in every world. -/
structure Proper [DecidableEq Res] (S : System Db Write Res Aux Stmt Inp Env ε Tag α Ans)
    (C : Contract Db Write Res Aux Stmt Inp ε Tag α)
    (w : World Db Write Res Aux Stmt Inp ε Tag α Ans) : Prop where
  /-- Locks are exclusive. -/
  excl : Exclusive w.store
  /-- Every session writes under locks. -/
  covered : ∀ i, Covered S.toEngine i w.store
  /-- The invariant. -/
  inv : C.inv w.store
  /-- What is left of every session is safe. -/
  safe : ∀ i t p, w.sess i = some (t, p) → Safe S.toEngine C i t (C.post i t) p w.store
  /-- Unused session ids are fresh. -/
  unborn : ∀ i, w.next ≤ i → w.sess i = none ∧ Fresh i w.store

section soundness

variable [DecidableEq Res] {S : System Db Write Res Aux Stmt Inp Env ε Tag α Ans}
  {C : Contract Db Write Res Aux Stmt Inp ε Tag α}
  {s₀ : Store Db Write Res Aux Stmt Inp Tag}
  {w w' : World Db Write Res Aux Stmt Inp ε Tag α Ans}

theorem proper_init (h : Sound S C s₀) : Proper S C (World.init s₀) where
  excl := by intro r i j hi; exact absurd hi ((h.init.2 i).locks r)
  covered := fun i => (h.init.2 i).covered
  inv := h.init.1
  safe := by intro i t p hp; exact absurd hp (by simp [World.init])
  unborn := fun i _ => ⟨rfl, h.init.2 i⟩

/-- A session that exists has a used id. -/
theorem Proper.lt_next (hp : Proper S C w) {i : Sid} {x : Tag × Prog Stmt Ans ε α}
    (h : w.sess i = some x) : i < w.next := by
  rcases Nat.lt_or_ge i w.next with hlt | hge
  · exact hlt
  · rw [(hp.unborn i hge).1] at h; exact absurd h (by simp)

/-- Sessions other than `i` live through any move of `i` that frames them. -/
theorem Proper.move (h : Sound S C s₀) (hp : Proper S C w) {i : Sid} {s' : Store _ _ _ _ _ _ _}
    {x : Option (Tag × Prog Stmt Ans ε α)} (hi : i < w.next)
    (hexcl : Exclusive s') (hcov : Covered S.toEngine i s')
    (hframe : ∀ j, j ≠ i → Frame S.toEngine j w.store s')
    (hg : Guar S.toEngine C i w.store s')
    (hx : ∀ t p, x = some (t, p) → Safe S.toEngine C i t (C.post i t) p s') :
    Proper S C { w with store := s', sess := upd w.sess i x } where
  excl := hexcl
  covered := by
    intro j
    by_cases hj : j = i
    · subst hj; exact hcov
    · exact (hp.covered j).frame (hframe j hj)
  inv := hg.inv
  safe := by
    intro j t p hjp
    by_cases hj : j = i
    · subst hj
      simp only [upd_self] at hjp
      exact hx t p hjp
    · simp only [upd_ne _ _ hj] at hjp
      exact (hp.safe j t p hjp).rely h.pre ⟨hframe j hj, hg.rely j hj, hg.inv⟩
  unborn := by
    intro j hj
    have hji : j ≠ i := fun he => by subst he; exact absurd hi (Nat.not_lt.mpr hj)
    exact ⟨by simp only [upd_ne _ _ hji]; exact (hp.unborn j hj).1,
      (hp.unborn j hj).2.frame (hframe j hji)⟩

/-- **Every move keeps the world proper.** -/
theorem proper_step (h : Sound S C s₀) (hp : Proper S C w) {a : Action Tag Inp Env}
    (hs : S.step w a = some w') : Proper S C w' := by
  cases a with
  | spawn t =>
      injection hs with hs; subst hs
      refine ⟨hp.excl, hp.covered, hp.inv, ?_, ?_⟩
      · intro j t' p hjp
        by_cases hj : j = w.next
        · subst hj
          simp only [upd_self, Option.some.injEq, Prod.mk.injEq] at hjp
          obtain ⟨rfl, rfl⟩ := hjp
          exact h.start _ _ _ hp.inv (hp.unborn _ (Nat.le_refl _)).2
        · simp only [upd_ne _ _ hj] at hjp
          exact hp.safe j t' p hjp
      · intro j hj
        have hne : j ≠ w.next := Nat.ne_of_gt hj
        exact ⟨by simp only [upd_ne _ _ hne]; exact (hp.unborn j (Nat.le_of_lt hj)).1,
          (hp.unborn j (Nat.le_of_lt hj)).2⟩
  | exec i inp =>
      rw [System.step] at hs
      split at hs
      · rename_i t q k hsess
        split at hs
        · rename_i r s' hx
          injection hs with hs; subst hs
          obtain ⟨hg, hk⟩ := hp.safe i t _ hsess w.store inp r s' (Rely.refl h.pre hp.inv) hx
          refine hp.move h (hp.lt_next hsess) (exec_exclusive hp.excl hx)
            (exec_covered (hp.covered i) hx)
            (fun j hj => exec_frame hp.excl (hp.covered i) hj hx) hg ?_
          intro t' p he
          simp only [Option.some.injEq, Prod.mk.injEq] at he
          obtain ⟨rfl, rfl⟩ := he
          exact hk
        · exact absurd hs (by simp)
      · rename_i t a hsess
        split at hs
        · rename_i p hag
          injection hs with hs; subst hs
          refine hp.move h (hp.lt_next hsess) hp.excl (hp.covered i) (fun j _ => Frame.refl)
            ⟨fun j _ => h.pre.refl j _, hp.inv⟩ ?_
          intro t' p' he
          simp only [Option.some.injEq, Prod.mk.injEq] at he
          obtain ⟨rfl, rfl⟩ := he
          exact h.again i t p a _ hag hp.inv (hp.safe i t _ hsess _ (Rely.refl h.pre hp.inv))
        · exact absurd hs (by simp)
      · exact absurd hs (by simp)
  | crash i =>
      rw [System.step] at hs
      split at hs
      · rename_i x hsess
        injection hs with hs; subst hs
        obtain ⟨hk, hi⟩ := h.crash i w.store hp.inv
        exact hp.move h (hp.lt_next hsess) (drop_exclusive hp.excl) drop_idle.covered
          (fun j hj => drop_frame hj) ⟨hk, hi⟩ (by simp)
      · exact absurd hs (by simp)
  | env x =>
      rw [System.step] at hs
      split at hs
      · rename_i a he
        injection hs with hs; subst hs
        obtain ⟨hk, hi⟩ := h.env x a w.store hp.inv he
        have hf : ∀ j, Frame S.toEngine j w.store { w.store with aux := a } := fun j =>
          ⟨rfl, fun _ => Iff.rfl, fun r _ => S.same_refl r _, ⟨[], by simp⟩, ⟨[], by simp⟩,
            ⟨[], by simp⟩⟩
        refine ⟨hp.excl, fun j => (hp.covered j).frame (hf j), hi, ?_, ?_⟩
        · intro j t p hjp
          exact (hp.safe j t p hjp).rely h.pre ⟨hf j, hk j, hi⟩
        · intro j hj
          exact ⟨(hp.unborn j hj).1, (hp.unborn j hj).2.frame (hf j)⟩
      · exact absurd hs (by simp)

/-- **A sound contract holds in every reachable world.** -/
theorem Sound.reachable (h : Sound S C s₀) (hr : Reachable S s₀ w) : Proper S C w := by
  induction hr with
  | init => exact proper_init h
  | tail _ hs ih => exact proper_step h ih hs

/-- A session that has returned satisfies its postcondition. -/
theorem Proper.returned (h : Sound S C s₀) (hp : Proper S C w) {i : Sid} {t : Tag} {a : α}
    (hs : w.sess i = some (t, .ret a)) : C.post i t (.ok a) w.store :=
  hp.safe i t _ hs w.store (Rely.refl h.pre hp.inv)

/-- So does a session that has raised. -/
theorem Proper.raised (h : Sound S C s₀) (hp : Proper S C w) {i : Sid} {t : Tag} {e : ε}
    (hs : w.sess i = some (t, .raise e)) : C.post i t (.error e) w.store :=
  hp.safe i t _ hs w.store (Rely.refl h.pre hp.inv)

end soundness

end Isolation
