import Mathlib.Data.Set.Basic
import Mathlib.Logic.Relation
import Mathlib.Order.Basic
import WalletLedger.Isolation.Runs

/-!
# Locks in ascending order

Resources that sessions may wait for have a rank. A session that asks only for
resources ranked above everything it holds never waits for one that waits for it:
along a chain of waiting sessions the ranks they wait for go up.

`Climbs` is the discipline, as a weakest precondition over programs: it is by
recursion on the program and follows what the session holds exactly, so whether
a resource is held already can be decided at every statement. `acyclic` is what
every run gains from it. Resources without a rank are left out of account.
-/

namespace Isolation

variable {Db Write Res Aux Stmt Inp Env ε Tag α β γ R : Type} {Ans : Stmt → Type}

/-- The ranked resources a session holds after an effect. -/
def Effect.held (rank : Res → Option R) (e : Effect Write Res Aux ε β) (H : Set Res) : Set Res :=
  match e.ctl with
  | .stay => H ∪ {r | r ∈ e.locks ∧ (rank r).isSome}
  | .commit => ∅
  | .abort => ∅

/-- Whatever is asked for and not held yet ranks above everything held. -/
def Above [Preorder R] (rank : Res → Option R) (H : Set Res) (rs : List Res) : Prop :=
  ∀ r ∈ rs, r ∉ H → ∀ x, rank r = some x → ∀ h ∈ H, ∀ y, rank h = some y → y < x

/-- The weakest precondition, on what session `i` holds, for `p` to ask in ascending
order and to end in `Q`. -/
def Climbs [Preorder R] (E : Engine Db Write Res Aux Stmt Inp Env ε Ans) (rank : Res → Option R)
    (i : Sid) : Prog Stmt Ans ε β → (Except ε β → Set Res → Prop) → Set Res → Prop
  | .ret a, Q, H => Q (.ok a) H
  | .raise e, Q, H => Q (.error e) H
  | .call q k, Q, H => ∀ inp db aux e, E.run q inp i db aux = some e →
      Above rank H e.locks ∧ Climbs E rank i (k e.ans) Q (e.held rank H)

section rules

variable [Preorder R] {E : Engine Db Write Res Aux Stmt Inp Env ε Ans} {rank : Res → Option R}
  {i : Sid} {p : Prog Stmt Ans ε β} {Q : Except ε β → Set Res → Prop} {H : Set Res}

theorem Above.empty (rs : List Res) : Above rank ∅ rs :=
  fun _ _ _ _ _ h hh => absurd hh (Set.notMem_empty h)

theorem Climbs.mono {Q' : Except ε β → Set Res → Prop} (h : Climbs E rank i p Q H)
    (hQ : ∀ r H, Q r H → Q' r H) : Climbs E rank i p Q' H := by
  induction p generalizing H with
  | ret a => exact hQ _ _ h
  | raise e => exact hQ _ _ h
  | call q k ih =>
      intro inp db aux e he
      obtain ⟨habove, hk⟩ := h inp db aux e he
      exact ⟨habove, ih e.ans hk⟩

theorem Climbs.handle {f : Except ε β → Prog Stmt Ans ε γ} {Q' : Except ε γ → Set Res → Prop}
    (hp : Climbs E rank i p Q H) (hf : ∀ r H, Q r H → Climbs E rank i (f r) Q' H) :
    Climbs E rank i (p.handle f) Q' H := by
  induction p generalizing H with
  | ret a => exact hf _ _ hp
  | raise e => exact hf _ _ hp
  | call q k ih =>
      intro inp db aux e he
      obtain ⟨habove, hk⟩ := hp inp db aux e he
      exact ⟨habove, ih e.ans hk⟩

theorem Climbs.bind {f : β → Prog Stmt Ans ε γ} {Q' : Except ε γ → Set Res → Prop}
    (hp : Climbs E rank i p Q H) (hf : ∀ a H, Q (.ok a) H → Climbs E rank i (f a) Q' H)
    (he : ∀ e H, Q (.error e) H → Q' (.error e) H) : Climbs E rank i (p >>= f) Q' H := by
  refine hp.handle (fun r H hr => ?_)
  cases r with
  | ok a => exact hf a H hr
  | error e => exact he e H hr

theorem Climbs.perform {q : Stmt} {Q : Except ε (Ans q) → Set Res → Prop}
    (h : ∀ inp db aux e, E.run q inp i db aux = some e →
      Above rank H e.locks ∧ Q e.ans (e.held rank H)) :
    Climbs E rank i (Prog.perform q) Q H := by
  intro inp db aux e he
  obtain ⟨habove, hq⟩ := h inp db aux e he
  refine ⟨habove, ?_⟩
  cases hr : e.ans with
  | ok a => rw [hr] at hq; exact hq
  | error x => rw [hr] at hq; exact hq

/-- **The vocabulary rule.** A program whose statements ask for nothing ranked ends with
what it began with, or with nothing. -/
theorem Climbs.uses {P : Stmt → Prop} (hp : p.Uses P)
    (hP : ∀ q, P q → ∀ inp db aux e, E.run q inp i db aux = some e → ∀ r ∈ e.locks, rank r = none) :
    Climbs E rank i p (fun _ H' => H' = H ∨ H' = ∅) H := by
  -- what is held is the set it began with or the empty one, all along
  have hgen : ∀ H', H' = H ∨ H' = ∅ → Climbs E rank i p (fun _ H' => H' = H ∨ H' = ∅) H' := by
    induction p with
    | ret a => exact fun H' h => h
    | raise e => exact fun H' h => h
    | call q k ih =>
        intro H' h inp db aux e he
        have hnone := hP q hp.1 inp db aux e he
        refine ⟨fun r hr _ x hx => ?_, ih e.ans (hp.2 e.ans) _ ?_⟩
        · rw [hnone r hr] at hx
          exact absurd hx (by simp)
        · unfold Effect.held
          cases e.ctl with
          | commit => exact .inr rfl
          | abort => exact .inr rfl
          | stay =>
              have hempty : {r | r ∈ e.locks ∧ (rank r).isSome} = (∅ : Set Res) := by
                refine Set.eq_empty_of_forall_notMem (fun r hr => ?_)
                rw [Set.mem_ofPred_eq, hnone r (Set.mem_ofPred_eq ▸ hr).1] at hr
                exact absurd hr.2 (by simp)
              simp only [hempty, Set.union_empty]
              exact h
  exact hgen H (.inl rfl)

end rules

/-! ## Runs -/

section runs

variable [DecidableEq Res] {S : System Db Write Res Aux Stmt Inp Env ε Tag α Ans}
  {w w₁ : World Db Write Res Aux Stmt Inp ε Tag α Ans}

/-- A statement changes the locks of its own session only. -/
theorem exec_locks {E : Engine Db Write Res Aux Stmt Inp Env ε Ans} {i : Sid} {t : Tag} {q : Stmt}
    {inp : Inp} {r : Except ε (Ans q)} {s s' : Store Db Write Res Aux Stmt Inp Tag}
    (h : exec E i t q inp s = some (r, s')) :
    (∃ e, E.run q inp i (s.view E i) s.aux = some e ∧ r = e.ans
      ∧ ∀ (rank : Res → Option R) (H : Set Res),
        (∀ x, (rank x).isSome → ((x, i) ∈ s.locks ↔ x ∈ H)) →
        ∀ x, (rank x).isSome → ((x, i) ∈ s'.locks ↔ x ∈ e.held rank H))
    ∧ ∀ x j, j ≠ i → ((x, j) ∈ s'.locks ↔ (x, j) ∈ s.locks) := by
  constructor
  · obtain ⟨e, he, hr, -, ho⟩ := exec_outcome h
    refine ⟨e, he, hr, fun rank H hH x hx => ?_⟩
    unfold Effect.held
    cases ho with
    | stay ctl _ _ _ locks =>
        rw [ctl, locks, hH x hx]
        simp only [Set.mem_union, Set.mem_ofPred_eq, hx, and_true]
    | commit ctl _ _ idle =>
        rw [ctl]
        exact ⟨fun hl => absurd hl (idle.locks x), fun hl => absurd hl (Set.notMem_empty x)⟩
    | abort ctl _ _ idle =>
        rw [ctl]
        exact ⟨fun hl => absurd hl (idle.locks x), fun hl => absurd hl (Set.notMem_empty x)⟩
  · obtain ⟨e, -, -, -, rfl⟩ := exec_cases h
    intro x j hj
    unfold Store.settle
    cases e.ctl with
    | stay =>
        simp only [Store.observe, List.mem_append, List.mem_map, Prod.mk.injEq]
        refine ⟨fun hl => ?_, Or.inl⟩
        rcases hl with hl | ⟨_, -, -, hij⟩
        · exact hl
        · exact absurd hij.symm hj
    | commit => exact mem_release.trans ⟨fun hl => hl.1, fun hl => ⟨hl, hj⟩⟩
    | abort => exact mem_release.trans ⟨fun hl => hl.1, fun hl => ⟨hl, hj⟩⟩

theorem Reachable.exclusive {db : Db} {aux : Aux} (h : Reachable S (Store.init db aux) w) :
    Exclusive w.store := by
  induction h with
  | init =>
      intro r i j hi
      exact absurd hi (by simp [World.init, Store.init])
  | tail _ hs ih =>
      rcases step_cases hs with ⟨t, -, rfl⟩ | ⟨i, inp, t, q, k, r, s', -, -, hx, rfl⟩
        | ⟨i, inp, t, x, p, -, -, -, rfl⟩ | ⟨i, x, -, -, rfl⟩ | ⟨x, o, -, -, rfl⟩
      · exact ih
      · exact exec_exclusive ih hx
      · exact ih
      · exact drop_exclusive ih
      · exact ih

/-- What session `i` holds of ranked resources. -/
def Holds (rank : Res → Option R) (s : Store Db Write Res Aux Stmt Inp Tag)
    (i : Sid) (H : Set Res) :
    Prop := ∀ x, (rank x).isSome → ((x, i) ∈ s.locks ↔ x ∈ H)

/-- **In every reachable world every session asks in ascending order**, if every program
does that starts with nothing. -/
theorem Reachable.climbs [Preorder R] {rank : Res → Option R} {db : Db} {aux : Aux}
    (hstart : ∀ i t, Climbs S.toEngine rank i (S.start t) (fun _ H => H = ∅) ∅)
    (hagain : ∀ i t p, S.again t = some p → Climbs S.toEngine rank i p (fun _ H => H = ∅) ∅)
    (h : Reachable S (Store.init db aux) w) :
    (∀ i, w.next ≤ i → ∀ r, (r, i) ∉ w.store.locks)
    ∧ ∀ i t p, w.sess i = some (t, p) →
        ∃ H, Holds rank w.store i H ∧ Climbs S.toEngine rank i p (fun _ H => H = ∅) H := by
  induction h with
  | init =>
      refine ⟨fun i _ r hr => ?_, fun i t p hp => absurd hp (by simp [World.init])⟩
      exact absurd hr (by simp [World.init, Store.init])
  | tail hr hs ih =>
      rename_i w₁ w₂ a
      obtain ⟨hfree, hclimb⟩ := ih
      have hsigned := hr.signed
      rcases step_cases hs with ⟨t, -, rfl⟩ | ⟨i, inp, t, q, k, r, s', -, hsess, hx, rfl⟩
        | ⟨i, inp, t, x, p, -, hsess, hag, rfl⟩ | ⟨i, x, -, hsess, rfl⟩ | ⟨x, o, -, -, rfl⟩
      · refine ⟨fun i hi => hfree i (Nat.le_of_succ_le hi), fun j t' p hp => ?_⟩
        by_cases hj : j = w₁.next
        · subst hj
          simp only [upd_self] at hp
          cases hp
          refine ⟨∅, fun x _ =>
            ⟨fun hl => ?_, fun hl => absurd hl (Set.notMem_empty x)⟩, hstart _ t⟩
          exact absurd hl (hfree _ (Nat.le_refl _) x)
        · simp only [upd_ne _ _ hj] at hp
          exact hclimb j t' p hp
      · obtain ⟨⟨e, he, rfl, hheld⟩, hothers⟩ := exec_locks (R := R) hx
        refine ⟨fun j hj x hl => ?_, fun j t' p hp => ?_⟩
        · have hne : j ≠ i := Nat.ne_of_gt (Nat.lt_of_lt_of_le (hsigned.born i _ hsess) hj)
          exact hfree j hj x ((hothers x j hne).mp hl)
        · by_cases hj : j = i
          · subst hj
            simp only [upd_self] at hp
            cases hp
            obtain ⟨H, hH, hc⟩ := hclimb j t _ hsess
            exact ⟨e.held rank H, hheld rank H hH, (hc inp _ _ e he).2⟩
          · simp only [upd_ne _ _ hj] at hp
            obtain ⟨H, hH, hc⟩ := hclimb j t' p hp
            exact ⟨H, fun x hx => (hothers x j hj).trans (hH x hx), hc⟩
      · refine ⟨hfree, fun j t' p' hp => ?_⟩
        by_cases hj : j = i
        · subst hj
          simp only [upd_self] at hp
          cases hp
          obtain ⟨H, hH, hc⟩ := hclimb j t _ hsess
          have hempty : H = ∅ := hc
          subst hempty
          exact ⟨∅, hH, hagain j t p hag⟩
        · simp only [upd_ne _ _ hj] at hp
          exact hclimb j t' p' hp
      · refine ⟨fun j hj x hl => hfree j hj x (mem_release.mp hl).1, fun j t' p' hp => ?_⟩
        by_cases hj : j = i
        · subst hj
          simp only [upd_self] at hp
          exact absurd hp (by simp)
        · simp only [upd_ne _ _ hj] at hp
          obtain ⟨H, hH, hc⟩ := hclimb j t' p' hp
          exact ⟨H, fun x hx =>
            (mem_release.trans ⟨fun hl => hl.1, fun hl => ⟨hl, hj⟩⟩).trans (hH x hx), hc⟩
      · exact ⟨hfree, hclimb⟩

/-! ## Waiting -/

/-- The next statement of session `i` asks for a resource of rank `x` that `j` holds. -/
def WaitsAt (S : System Db Write Res Aux Stmt Inp Env ε Tag α Ans) (rank : Res → Option R)
    (w : World Db Write Res Aux Stmt Inp ε Tag α Ans) (i j : Sid) (x : R) : Prop :=
  i ≠ j ∧ ∃ t q k inp e r, w.sess i = some (t, .call q k)
    ∧ S.run q inp i (w.store.view S.toEngine i) w.store.aux = some e
    ∧ r ∈ e.locks ∧ rank r = some x ∧ (r, j) ∈ w.store.locks

/-- Session `i` waits for session `j`. -/
def Waits (S : System Db Write Res Aux Stmt Inp Env ε Tag α Ans) (rank : Res → Option R)
    (w : World Db Write Res Aux Stmt Inp ε Tag α Ans) (i j : Sid) : Prop :=
  ∃ x, WaitsAt S rank w i j x

variable [Preorder R] {rank : Res → Option R}
  (hexcl : Exclusive w.store)
  (hclimb : ∀ i t p, w.sess i = some (t, p) →
    ∃ H, Holds rank w.store i H ∧ Climbs S.toEngine rank i p (fun _ H => H = ∅) H)

include hexcl hclimb

omit [DecidableEq Res] in
/-- What a waiting session holds ranks below what it waits for. -/
theorem WaitsAt.above {i j : Sid} {x : R} (h : WaitsAt S rank w i j x) {r : Res} {y : R}
    (hr : (r, i) ∈ w.store.locks) (hy : rank r = some y) : y < x := by
  obtain ⟨hij, t, q, k, inp, e, r', hsess, he, hr', hx, hj⟩ := h
  obtain ⟨H, hH, hc⟩ := hclimb i t _ hsess
  have hheld : r ∈ H := (hH r (by rw [hy]; rfl)).mp hr
  have hfree : r' ∉ H := fun hin =>
    hij (hexcl r' i j ((hH r' (by rw [hx]; rfl)).mpr hin) hj)
  exact (hc inp _ _ e he).1 r' hr' hfree x hx r hheld y hy

omit [DecidableEq Res] in
/-- Along a chain of waiting sessions the ranks go up. -/
theorem waits_chain {i j : Sid} (h : Relation.TransGen (Waits S rank w) i j) :
    ∃ j' x y, WaitsAt S rank w i j' x ∧ x ≤ y ∧ ∃ r, (r, j) ∈ w.store.locks ∧ rank r = some y := by
  induction h with
  | single h =>
      obtain ⟨x, hx⟩ := h
      obtain ⟨-, t, q, k, inp, e, r, -, -, -, hrank, hr⟩ := id hx
      exact ⟨_, x, x, hx, le_refl x, r, hr, hrank⟩
  | tail _ h ih =>
      obtain ⟨j', x, y, hwait, hle, r, hr, hrank⟩ := ih
      obtain ⟨z, hz⟩ := h
      have hlt := hz.above hexcl hclimb hr hrank
      obtain ⟨-, t, q, k, inp, e, r', -, -, -, hrank', hr'⟩ := id hz
      exact ⟨j', x, z, hwait, hle.trans hlt.le, r', hr', hrank'⟩

omit [DecidableEq Res] in
/-- **Nobody waits for itself**, however long the chain. -/
theorem acyclic (i : Sid) : ¬Relation.TransGen (Waits S rank w) i i := by
  intro h
  obtain ⟨j, x, y, hwait, hle, r, hr, hrank⟩ := waits_chain hexcl hclimb h
  exact absurd (hwait.above hexcl hclimb hr hrank) (not_lt_of_ge hle)

end runs

end Isolation
