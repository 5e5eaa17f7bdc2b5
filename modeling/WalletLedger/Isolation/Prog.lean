import Mathlib.Init

/-!
# Client programs

A client of a store is a tree of statements: it ends with a value, raises, or
issues one statement and goes on with whatever came back, be that an answer or
an exception. Python's `try`, `except` and `finally` are all the one combinator
`handle`, which looks at both ways a program can end.

The tree is finite, so everything about programs is by structural recursion. A
server loop is a program that is started again when it ends, and lives outside
the tree.
-/

namespace Isolation

/-- A program over statements `Stmt`, answered by `Ans`, raising `ε`. -/
inductive Prog (Stmt : Type) (Ans : Stmt → Type) (ε α : Type) where
  /-- Return. -/
  | ret (a : α)
  /-- Raise. -/
  | raise (e : ε)
  /-- Issue a statement and continue with its outcome. -/
  | call (q : Stmt) (k : Except ε (Ans q) → Prog Stmt Ans ε α)

namespace Prog

variable {Stmt : Type} {Ans : Stmt → Type} {ε α β : Type}

/-- Run `p`, then `h` on whichever way it ended. -/
def handle : Prog Stmt Ans ε α → (Except ε α → Prog Stmt Ans ε β) → Prog Stmt Ans ε β
  | .ret a, h => h (.ok a)
  | .raise e, h => h (.error e)
  | .call q k, h => .call q (fun r => (k r).handle h)

/-- Return an `ok`, raise an `error`. -/
def ofExcept : Except ε α → Prog Stmt Ans ε α
  | .ok a => .ret a
  | .error e => .raise e

/-- What `bind` does with an outcome: go on after a value, stop at an exception. -/
def andThen (f : α → Prog Stmt Ans ε β) : Except ε α → Prog Stmt Ans ε β
  | .ok a => f a
  | .error e => .raise e

/-- Sequencing: an exception skips the rest. -/
def bind (p : Prog Stmt Ans ε α) (f : α → Prog Stmt Ans ε β) : Prog Stmt Ans ε β :=
  p.handle (andThen f)

instance : Monad (Prog Stmt Ans ε) where
  pure := ret
  bind := bind

/-- Issue one statement; its exception, if any, propagates. -/
def perform (q : Stmt) : Prog Stmt Ans ε (Ans q) := .call q ofExcept

/-- Run `p` and hand its outcome over as a value. -/
def attempt (p : Prog Stmt Ans ε α) : Prog Stmt Ans ε (Except ε α) := p.handle .ret

/-- `if c: raise e`. -/
def raiseIf (c : Prop) [Decidable c] (e : ε) : Prog Stmt Ans ε Unit :=
  if c then .raise e else .ret ()

/-! ## How the combinators compute -/

theorem bind_eq (p : Prog Stmt Ans ε α) (f : α → Prog Stmt Ans ε β) :
    (p >>= f) = p.handle (andThen f) := rfl

@[simp] theorem handle_ret (a : α) (h : Except ε α → Prog Stmt Ans ε β) :
    (ret a).handle h = h (.ok a) := rfl

@[simp] theorem handle_raise (e : ε) (h : Except ε α → Prog Stmt Ans ε β) :
    (raise e : Prog Stmt Ans ε α).handle h = h (.error e) := rfl

@[simp] theorem handle_call (q : Stmt) (k : Except ε (Ans q) → Prog Stmt Ans ε α)
    (h : Except ε α → Prog Stmt Ans ε β) :
    (call q k).handle h = call q (fun r => (k r).handle h) := rfl

@[simp] theorem andThen_ok (f : α → Prog Stmt Ans ε β) (a : α) : andThen f (.ok a) = f a := rfl

@[simp] theorem andThen_error (f : α → Prog Stmt Ans ε β) (e : ε) :
    andThen f (.error e) = raise e := rfl

theorem map_eq (f : α → β) (p : Prog Stmt Ans ε α) :
    f <$> p = p.handle (andThen (fun a => ret (f a))) := rfl

/-- Looking at an outcome as a value is handling it. -/
theorem attempt_bind (p : Prog Stmt Ans ε α) (f : Except ε α → Prog Stmt Ans ε β) :
    (p.attempt >>= f) = p.handle f := by
  induction p with
  | ret a => rfl
  | raise e => rfl
  | call q k ih => exact congrArg (call q) (funext ih)

/-- Sequencing is associative. -/
theorem bind_assoc {γ : Type} (p : Prog Stmt Ans ε α) (f : α → Prog Stmt Ans ε β)
    (g : β → Prog Stmt Ans ε γ) : (p >>= f >>= g) = p >>= fun a => f a >>= g := by
  induction p with
  | ret a => rfl
  | raise e => rfl
  | call q k ih => exact congrArg (call q) (funext ih)

theorem ofExcept_inj {r r' : Except ε α}
    (h : (ofExcept r : Prog Stmt Ans ε α) = ofExcept r') : r = r' := by
  cases r with
  | ok a => cases r' with
    | ok b => injection h with h; rw [h]
    | error e => exact absurd h (by simp [ofExcept])
  | error e => cases r' with
    | ok b => exact absurd h (by simp [ofExcept])
    | error e' => injection h with h; rw [h]

/-! ## The statements a program can issue -/

/-- Every statement `p` can issue, whatever it is answered, satisfies `P`. -/
def Uses (P : Stmt → Prop) : Prog Stmt Ans ε α → Prop
  | .ret _ => True
  | .raise _ => True
  | .call q k => P q ∧ ∀ r, (k r).Uses P

section uses

variable {P : Stmt → Prop} {p : Prog Stmt Ans ε α}

theorem Uses.handle {h : Except ε α → Prog Stmt Ans ε β} (hp : p.Uses P) (hh : ∀ r, (h r).Uses P) :
    (p.handle h).Uses P := by
  induction p with
  | ret a => exact hh _
  | raise e => exact hh _
  | call q k ih => exact ⟨hp.1, fun r => ih r (hp.2 r)⟩

theorem Uses.bind {f : α → Prog Stmt Ans ε β} (hp : p.Uses P) (hf : ∀ a, (f a).Uses P) :
    (p >>= f).Uses P := by
  refine hp.handle (fun r => ?_)
  cases r with
  | ok a => exact hf a
  | error e => trivial

theorem Uses.map {f : α → β} (hp : p.Uses P) : (f <$> p).Uses P := hp.bind (fun _ => trivial)

theorem Uses.attempt (hp : p.Uses P) : p.attempt.Uses P := hp.handle (fun _ => trivial)

theorem Uses.perform {q : Stmt} (h : P q) : (Prog.perform q : Prog Stmt Ans ε (Ans q)).Uses P := by
  refine ⟨h, fun r => ?_⟩
  cases r with
  | ok a => trivial
  | error e => trivial

theorem Uses.ofExcept (r : Except ε α) : (Prog.ofExcept r : Prog Stmt Ans ε α).Uses P := by
  cases r with
  | ok a => trivial
  | error e => trivial

theorem Uses.raiseIf (c : Prop) [Decidable c] (e : ε) :
    (Prog.raiseIf c e : Prog Stmt Ans ε Unit).Uses P := by
  unfold Prog.raiseIf
  split <;> trivial

theorem Uses.any (p : Prog Stmt Ans ε α) : p.Uses (fun _ => True) := by
  induction p with
  | ret a => trivial
  | raise e => trivial
  | call q k ih => exact ⟨trivial, ih⟩

theorem Uses.mono {P' : Stmt → Prop} (hp : p.Uses P) (h : ∀ q, P q → P' q) : p.Uses P' := by
  induction p with
  | ret a => trivial
  | raise e => trivial
  | call q k ih => exact ⟨h q hp.1, fun r => ih r (hp.2 r)⟩

end uses

/-! ## How many statements a program can issue -/

/-- `p` issues at most `n` statements, whatever they are answered. -/
def AtMost : Prog Stmt Ans ε α → Nat → Prop
  | .ret _, _ => True
  | .raise _, _ => True
  | .call _ k, n => 0 < n ∧ ∀ r, (k r).AtMost (n - 1)

section atMost

variable {p : Prog Stmt Ans ε α} {m n : Nat}

theorem AtMost.mono (hp : p.AtMost m) (h : m ≤ n) : p.AtMost n := by
  induction p generalizing m n with
  | ret a => trivial
  | raise e => trivial
  | call q k ih =>
      exact ⟨Nat.lt_of_lt_of_le hp.1 h, fun r => ih r (hp.2 r) (Nat.sub_le_sub_right h 1)⟩

theorem AtMost.handle {h : Except ε α → Prog Stmt Ans ε β} (hp : p.AtMost m)
    (hh : ∀ r, (h r).AtMost n) : (p.handle h).AtMost (m + n) := by
  induction p generalizing m with
  | ret a => exact (hh _).mono (Nat.le_add_left n m)
  | raise e => exact (hh _).mono (Nat.le_add_left n m)
  | call q k ih =>
      refine ⟨Nat.add_pos_left hp.1 n, fun r => (ih r (hp.2 r)).mono ?_⟩
      have hpos := hp.1
      omega

theorem AtMost.bind {f : α → Prog Stmt Ans ε β} (hp : p.AtMost m) (hf : ∀ a, (f a).AtMost n) :
    (p >>= f).AtMost (m + n) := by
  refine hp.handle (fun r => ?_)
  cases r with
  | ok a => exact hf a
  | error e => trivial

theorem AtMost.perform {q : Stmt} : (Prog.perform q : Prog Stmt Ans ε (Ans q)).AtMost 1 := by
  refine ⟨Nat.one_pos, fun r => ?_⟩
  cases r with
  | ok a => trivial
  | error e => trivial

/-- One statement, and what follows its answer. -/
theorem AtMost.step {q : Stmt} {f : Ans q → Prog Stmt Ans ε β} (hf : ∀ a, (f a).AtMost n) :
    (Prog.perform q >>= f).AtMost (n + 1) :=
  (AtMost.perform.bind hf).mono (Nat.le_of_eq (Nat.add_comm 1 n))

theorem AtMost.raiseIf (c : Prop) [Decidable c] (e : ε) :
    (Prog.raiseIf c e : Prog Stmt Ans ε Unit).AtMost 0 := by
  unfold Prog.raiseIf
  split <;> trivial

end atMost

/-! ## Statements that come last -/

/-- Once `p` has issued a statement with `P`, it issues only statements with `Q`. -/
def Seals (P Q : Stmt → Prop) : Prog Stmt Ans ε α → Prop
  | .ret _ => True
  | .raise _ => True
  | .call q k => (P q → ∀ r, (k r).Uses Q) ∧ ∀ r, (k r).Seals P Q

section seals

variable {P Q : Stmt → Prop} {p : Prog Stmt Ans ε α}

theorem Seals.ofUses (hp : p.Uses Q) : p.Seals P Q := by
  induction p with
  | ret a => trivial
  | raise e => trivial
  | call q k ih => exact ⟨fun _ => hp.2, fun r => ih r (hp.2 r)⟩

/-- The first part issues nothing with `P`. -/
theorem Seals.handle {h : Except ε α → Prog Stmt Ans ε β} (hp : p.Uses (fun q => ¬P q))
    (hh : ∀ r, (h r).Seals P Q) : (p.handle h).Seals P Q := by
  induction p with
  | ret a => exact hh _
  | raise e => exact hh _
  | call q k ih => exact ⟨fun hq => absurd hq hp.1, fun r => ih r (hp.2 r)⟩

/-- The second part issues nothing but `Q`. -/
theorem Seals.followed {h : Except ε α → Prog Stmt Ans ε β} (hp : p.Seals P Q)
    (hh : ∀ r, (h r).Uses Q) : (p.handle h).Seals P Q := by
  induction p with
  | ret a => exact .ofUses (hh _)
  | raise e => exact .ofUses (hh _)
  | call q k ih => exact ⟨fun hq r => (hp.1 hq r).handle hh, fun r => ih r (hp.2 r)⟩

end seals

end Prog

end Isolation
