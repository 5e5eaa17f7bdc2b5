import WalletLedger.Isolation.Trail

/-!
# What a program has to show for its end

A postcondition of a program over the statements it has executed: how it has ended, after which
statements, with what in its buffer. Unlike a contract it assumes nothing of the others, and unlike
a trail it is taken apart by rules, one per construct.

`Accounts` is the form for exceptions: a program that has raised one can point at statements of its
own that bear it out. `Engine.Threw` is how a statement bears one out itself.
-/

namespace Isolation

variable {Db Write Res Aux Stmt Inp Env ε Tag α β γ : Type} {Ans : Stmt → Type}

/-- The statement `o`, one of `os`, was answered with the exception `x`: it is what it comes to
in the state it met, with what the statements before it had left in the buffer. -/
def Engine.Threw (E : Engine Db Write Res Aux Stmt Inp Env ε Ans)
    (os : List (Obs Db Aux Stmt Inp Tag))
    (o : Obs Db Aux Stmt Inp Tag) (x : ε) : Prop :=
  ∃ pre post e, os = pre ++ o :: post
    ∧ E.run o.stmt o.inp o.sid (E.applyAll o.db (E.buffered [] pre)) o.aux = some e
      ∧ e.ans = .error x

/-- Wherever `p`, started after the statements `pre` with what they left in the buffer, has ended,
`Q` holds of its outcome, of all statements and of the buffer. -/
def Leaves (E : Engine Db Write Res Aux Stmt Inp Env ε Ans) (i : Sid) (t : Tag)
    (p : Prog Stmt Ans ε β)
    (ws : List Write) (pre : List (Obs Db Aux Stmt Inp Tag))
    (Q : Except ε β → List (Obs Db Aux Stmt Inp Tag) → List Write → Prop) : Prop :=
  E.buffered [] pre = ws →
    ∀ os r ws', Trail E i t p ws os (Prog.ofExcept r) ws' → Q r (pre ++ os) ws'

/-- What is asked of an outcome: `R` of an exception, `Q` of a value. -/
def Bears (R : List (Obs Db Aux Stmt Inp Tag) → ε → Prop)
    (Q : β → List (Obs Db Aux Stmt Inp Tag) → List Write → Prop) :
    Except ε β → List (Obs Db Aux Stmt Inp Tag) → List Write → Prop
  | .ok a, os, ws => Q a os ws
  | .error e, os, _ => R os e

/-- Wherever `p` has ended, either with a value and `Q`, or with an exception that `R` bears out. -/
def Accounts (E : Engine Db Write Res Aux Stmt Inp Env ε Ans) (i : Sid) (t : Tag)
    (R : List (Obs Db Aux Stmt Inp Tag) → ε → Prop) (p : Prog Stmt Ans ε β) (ws : List Write)
    (pre : List (Obs Db Aux Stmt Inp Tag))
    (Q : β → List (Obs Db Aux Stmt Inp Tag) → List Write → Prop) : Prop :=
  Leaves E i t p ws pre (Bears R Q)

section rules

variable {E : Engine Db Write Res Aux Stmt Inp Env ε Ans} {i : Sid} {t : Tag}
  {R : List (Obs Db Aux Stmt Inp Tag) → ε → Prop} {p : Prog Stmt Ans ε β} {ws : List Write}
  {pre : List (Obs Db Aux Stmt Inp Tag)}

theorem Engine.Threw.mem {os : List (Obs Db Aux Stmt Inp Tag)} {o : Obs Db Aux Stmt Inp Tag} {x : ε}
    (h : E.Threw os o x) : o ∈ os := by
  obtain ⟨pre, post, -, rfl, -, -⟩ := h
  exact List.mem_append_right _ List.mem_cons_self

theorem Engine.Threw.mono {os os' : List (Obs Db Aux Stmt Inp Tag)}
    {o : Obs Db Aux Stmt Inp Tag} {x : ε}
    (h : E.Threw os o x) (hos : os <+: os') : E.Threw os' o x := by
  obtain ⟨pre, post, e, rfl, hrun, hx⟩ := h
  obtain ⟨rest, rfl⟩ := hos
  exact ⟨pre, post ++ rest, e, by rw [List.append_assoc, List.cons_append], hrun, hx⟩

theorem Leaves.ended {Q : Except ε β → List (Obs Db Aux Stmt Inp Tag) → List Write → Prop}
    (hp : Leaves E i t p [] [] Q) {os : List (Obs Db Aux Stmt Inp Tag)} {r : Except ε β}
    {ws' : List Write}
    (h : Trail E i t p [] os (Prog.ofExcept r) ws') : Q r os ws' := hp rfl os r ws' h

theorem Leaves.mono {Q Q' : Except ε β → List (Obs Db Aux Stmt Inp Tag) → List Write → Prop}
    (hp : Leaves E i t p ws pre Q) (hQ : ∀ r os ws', Q r os ws' → Q' r os ws') :
    Leaves E i t p ws pre Q' :=
  fun hpre os r ws' h => hQ _ _ _ (hp hpre os r ws' h)

theorem Leaves.handle {Q : Except ε β → List (Obs Db Aux Stmt Inp Tag) → List Write → Prop}
    {Q' : Except ε γ → List (Obs Db Aux Stmt Inp Tag) → List Write → Prop}
    {f : Except ε β → Prog Stmt Ans ε γ} (hp : Leaves E i t p ws pre Q)
    (hf : ∀ r os ws', Q r os ws' → Leaves E i t (f r) ws' os Q') :
    Leaves E i t (p.handle f) ws pre Q' := by
  intro hpre os r ws' h
  obtain ⟨r₁, os₁, os₂, ws₁, rfl, h₁, h₂⟩ := h.handle_ended
  have hpre₁ : E.buffered [] (pre ++ os₁) = ws₁ := by
    rw [E.buffered_append, hpre, h₁.buffered]
  rw [← List.append_assoc]
  exact hf r₁ _ ws₁ (hp hpre os₁ r₁ ws₁ h₁) hpre₁ os₂ r ws' h₂

theorem Accounts.handle {Q : Except ε β → List (Obs Db Aux Stmt Inp Tag) → List Write → Prop}
    {Q' : γ → List (Obs Db Aux Stmt Inp Tag) → List Write → Prop} {f : Except ε β
      → Prog Stmt Ans ε γ}
    (hp : Leaves E i t p ws pre Q)
    (hf : ∀ r os ws', Q r os ws' → Accounts E i t R (f r) ws' os Q') :
    Accounts E i t R (p.handle f) ws pre Q' := Leaves.handle hp hf

theorem Accounts.mono {Q Q' : β → List (Obs Db Aux Stmt Inp Tag) → List Write → Prop}
    (hp : Accounts E i t R p ws pre Q) (hQ : ∀ a os ws', Q a os ws' → Q' a os ws') :
    Accounts E i t R p ws pre Q' := by
  refine Leaves.mono hp (fun r os ws' h => ?_)
  cases r with
  | ok a => exact hQ a os ws' h
  | error e => exact h

theorem Accounts.ret {Q : β → List (Obs Db Aux Stmt Inp Tag) → List Write → Prop} {a : β}
    (h : Q a pre ws) : Accounts E i t R (.ret a) ws pre Q := by
  intro _ os r ws' htrail
  obtain ⟨rfl, hr, rfl⟩ := htrail.ret_inv
  cases r with
  | ok b =>
      cases hr
      rw [List.append_nil]
      exact h
  | error e => exact absurd hr (by simp [Prog.ofExcept])

theorem Accounts.raise {Q : β → List (Obs Db Aux Stmt Inp Tag) → List Write → Prop} {e : ε}
    (h : R pre e) : Accounts E i t R (.raise e) ws pre Q := by
  intro _ os r ws' htrail
  obtain ⟨rfl, hr, rfl⟩ := htrail.raise_inv
  cases r with
  | ok b => exact absurd hr (by simp [Prog.ofExcept])
  | error e' =>
      cases hr
      rw [List.append_nil]
      exact h

theorem Accounts.bind {Q : β → List (Obs Db Aux Stmt Inp Tag) → List Write → Prop}
    {Q' : γ → List (Obs Db Aux Stmt Inp Tag) → List Write → Prop} {f : β → Prog Stmt Ans ε γ}
    (hp : Accounts E i t R p ws pre Q)
    (hf : ∀ a os ws', Q a os ws' → Accounts E i t R (f a) ws' os Q') :
    Accounts E i t R (p >>= f) ws pre Q' := by
  refine Leaves.handle hp (fun r os ws' h => ?_)
  cases r with
  | ok a => exact hf a os ws' h
  | error e => exact Accounts.raise h

theorem Accounts.map {Q : γ → List (Obs Db Aux Stmt Inp Tag) → List Write → Prop} {f : β → γ}
    (hp : Accounts E i t R p ws pre (fun a os ws' => Q (f a) os ws')) :
    Accounts E i t R (f <$> p) ws pre Q := hp.bind (fun _ _ _ h => .ret h)

theorem Accounts.raiseIf {Q : β → List (Obs Db Aux Stmt Inp Tag) → List Write → Prop} {c : Prop}
    [Decidable c] {e : ε} {f : Unit → Prog Stmt Ans ε β} (hc : c → R pre e)
    (hf : ¬c → Accounts E i t R (f ()) ws pre Q) :
    Accounts E i t R (Prog.raiseIf c e >>= f) ws pre Q := by
  unfold Prog.raiseIf
  by_cases h : c
  · rw [if_pos h]
    exact Accounts.raise (hc h)
  · rw [if_neg h]
    exact hf h

/-- One statement. If it fails, it has thrown what it was answered with. -/
theorem Leaves.perform {q : Stmt} {Q : Except ε (Ans q) → List (Obs Db Aux Stmt Inp Tag)
    → List Write → Prop}
    (h : ∀ inp db aux n e, E.run q inp i (E.applyAll db ws) aux = some e →
      (∀ x, e.ans = .error x →
        E.Threw (pre ++ [⟨i, t, q, inp, db, aux, e.ans.isOk, n⟩])
          ⟨i, t, q, inp, db, aux, e.ans.isOk, n⟩ x) →
      Q e.ans (pre ++ [⟨i, t, q, inp, db, aux, e.ans.isOk, n⟩]) (e.buffer ws)) :
    Leaves E i t (Prog.perform q) ws pre Q := by
  intro hpre os r ws' htrail
  obtain ⟨inp, db, aux, n, e, rfl, hrun, rfl, rfl⟩ := htrail.perform_ended
  refine h inp db aux n e hrun (fun x hx => ⟨pre, [], e, rfl, ?_, hx⟩)
  rw [hpre]
  exact hrun

end rules

end Isolation
