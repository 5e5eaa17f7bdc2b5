import Mathlib.Data.Fintype.Card
import Mathlib.Logic.Hydra
import WalletLedger.Isolation.Deadlock
import WalletLedger.Isolation.Trail

/-!
# Everybody gets done

That nobody waits in a circle is not yet that anybody gets anywhere. Two more things
are needed, and the three together say that sessions end.

Statements run out: a program is a well-founded tree, a statement takes one session one
step down its tree and leaves the others where they are (`works_acc`). This holds of any
order of statements and whatever they are answered.

Somebody can go on: among finitely many sessions that do not wait in a circle there is one
that waits for none of the others (`exists_able`). It can execute its statement as soon as
there is an answer to it that asks only for resources that are free, its own, or ranked and
held by one of them.
-/

namespace Isolation

variable {Db Write Res Aux Stmt Inp Env ε Tag α β γ R : Type} {Ans : Stmt → Type}

/-! ## Statements run out -/

/-- What a session has left after its next statement. -/
inductive Shorter : Option (Tag × Prog Stmt Ans ε α) → Option (Tag × Prog Stmt Ans ε α) → Prop where
  | answered (t : Tag) (q : Stmt) (k : Except ε (Ans q) → Prog Stmt Ans ε α)
      (r : Except ε (Ans q)) :
      Shorter (some (t, k r)) (some (t, .call q k))

theorem shorter_wf :
    WellFounded (Shorter : Option (Tag × Prog Stmt Ans ε α)
      → Option (Tag × Prog Stmt Ans ε α) → Prop) := by
  refine ⟨fun x => ?_⟩
  cases x with
  | none => exact ⟨_, fun y h => by cases h⟩
  | some x =>
      obtain ⟨t, p⟩ := x
      induction p with
      | ret a => exact ⟨_, fun y h => by cases h⟩
      | raise e => exact ⟨_, fun y h => by cases h⟩
      | call q k ih =>
          refine ⟨_, fun y h => ?_⟩
          cases h with
          | answered _ _ _ r => exact ih r

section works

variable [DecidableEq Res] {S : System Db Write Res Aux Stmt Inp Env ε Tag α Ans}
  {good : Inp → Prop} {s₀ : Store Db Write Res Aux Stmt Inp Tag}
  {w w₁ : World Db Write Res Aux Stmt Inp ε Tag α Ans}

/-- Some session executes a statement, the choices for it being `good`. -/
inductive Works (S : System Db Write Res Aux Stmt Inp Env ε Tag α Ans) (good : Inp → Prop)
    (w : World Db Write Res Aux Stmt Inp ε Tag α Ans) :
    World Db Write Res Aux Stmt Inp ε Tag α Ans → Prop where
  | exec {i : Sid} {t : Tag} {q : Stmt} {k : Except ε (Ans q) → Prog Stmt Ans ε α} {inp : Inp}
      {r : Except ε (Ans q)} {s' : Store Db Write Res Aux Stmt Inp Tag} :
      w.sess i = some (t, .call q k) → good inp → exec S.toEngine i t q inp w.store = some (r, s') →
        Works S good w ⟨s', upd w.sess i (some (t, k r)), w.next⟩

theorem Works.step (h : Works S good w w₁) : ∃ i inp, S.step w (.exec i inp) = some w₁ := by
  cases h with
  | @exec i t q k inp r s' hsess _ hx =>
      refine ⟨i, inp, ?_⟩
      simp only [System.step, hsess, hx]

theorem Reachable.worked (h : Reachable S s₀ w)
    (hw : Relation.ReflTransGen (Works S good) w w₁) : Reachable S s₀ w₁ := by
  induction hw with
  | refl => exact h
  | tail _ hs ih =>
      obtain ⟨i, inp, hs⟩ := hs.step
      exact ih.tail hs

/-- What the sessions have left, all together. -/
def remaining (w : World Db Write Res Aux Stmt Inp ε Tag α Ans) :
    Multiset (Option (Tag × Prog Stmt Ans ε α)) := (Multiset.range w.next).map w.sess

/-- A statement shortens what one session has left. -/
theorem Works.shortens (h : Works S good w w₁) (hb : ∀ i x, w.sess i = some x → i < w.next) :
    Relation.CutExpand Shorter (remaining w₁) (remaining w) := by
  cases h with
  | @exec i t q k inp r s' hsess _ hx =>
      have hi : i ∈ Multiset.range w.next := Multiset.mem_range.mpr (hb i _ hsess)
      have hrest : ((Multiset.range w.next).erase i).map (upd w.sess i (some (t, k r)))
          = ((Multiset.range w.next).erase i).map w.sess :=
        Multiset.map_congr rfl (fun j hj =>
          upd_ne _ _ ((Multiset.nodup_range w.next).mem_erase_iff.mp hj).1)
      refine ⟨{some (t, k r)}, some (t, .call q k), fun x hx => ?_, ?_⟩
      · rw [Multiset.mem_singleton.mp hx]
        exact .answered t q k r
      · show ((Multiset.range w.next).map (upd w.sess i (some (t, k r)))) + _ = _
        unfold remaining
        rw [← Multiset.cons_erase hi, Multiset.map_cons, Multiset.map_cons, hrest, upd_self, hsess,
          add_comm _ {some (t, Prog.call q k)}, add_comm _ {some (t, k r)}, Multiset.singleton_add,
          Multiset.singleton_add, Multiset.cons_swap]

/-- **There is no end to nothing but new sessions**: the statements of those there are run out,
in whatever order they are executed and whatever they are answered. -/
theorem works_acc (hb : ∀ i x, w.sess i = some x → i < w.next) :
    Acc (fun w₂ w₁ => Works S good w₁ w₂) w := by
  have hacc := (@shorter_wf Stmt ε Tag α Ans).cutExpand.apply
    (remaining w)
  generalize hm : remaining w = m at hacc
  induction hacc generalizing w with
  | intro m _ ih =>
      subst hm
      refine ⟨_, fun w₁ h => ih _ (h.shortens hb) ?_ rfl⟩
      -- the sessions are the same ones
      cases h with
      | @exec i t q k inp r s' hsess _ _ =>
          intro j x hj
          by_cases he : j = i
          · subst he
            exact hb j _ hsess
          · exact hb j x ((upd_ne w.sess (some (t, k r)) he).symm.trans hj)

/-- No session has a statement left. -/
def Quiescent (w : World Db Write Res Aux Stmt Inp ε Tag α Ans) : Prop :=
  ∀ i t q k, w.sess i ≠ some (t, .call q k)

/-- As long as somebody can go on until everybody has ended, everybody ends. -/
theorem exists_quiescent (hacc : Acc (fun w₂ w₁ => Works S good w₁ w₂) w)
    (hon : ∀ w₁, Relation.ReflTransGen (Works S good) w w₁ → ¬Quiescent w₁
      → ∃ w₂, Works S good w₁ w₂) :
    ∃ w₁, Relation.ReflTransGen (Works S good) w w₁ ∧ Quiescent w₁ := by
  induction hacc with
  | intro w _ ih =>
      by_cases hq : Quiescent w
      · exact ⟨w, .refl, hq⟩
      · obtain ⟨w₁, h₁⟩ := hon w .refl hq
        obtain ⟨w₂, h₂, hq₂⟩ := ih w₁ h₁ (fun w₂ h₂ => hon w₂ (.head h₁ h₂))
        exact ⟨w₂, .head h₁ h₂, hq₂⟩

end works

/-! ## What sessions hold -/

section held

variable [DecidableEq Res] {S : System Db Write Res Aux Stmt Inp Env ε Tag α Ans}
  {w : World Db Write Res Aux Stmt Inp ε Tag α Ans} {rank : Res → Option R}

/-- Who holds something is there. -/
theorem Reachable.attended {db : Db} {aux : Aux} (h : Reachable S (Store.init db aux) w) {r : Res}
    {i : Sid} (hr : (r, i) ∈ w.store.locks) : ∃ x, w.sess i = some x := by
  induction h with
  | init => exact absurd hr (by simp [World.init, Store.init])
  | tail hw hs ih =>
      rename_i w₁ w₂ a
      -- a session other than the one that moves is where it was
      have hkeep : ∀ {j : Sid} {x : Option (Tag × Prog Stmt Ans ε α)}, (r, i) ∈ w₁.store.locks →
          (i = j → ∃ y, x = some y) → ∃ y, upd w₁.sess j x i = some y := by
        intro j x hl hx
        by_cases he : i = j
        · subst he
          rw [upd_self]
          exact hx rfl
        · rw [upd_ne _ _ he]
          exact ih hl
      rcases step_cases hs with ⟨t, -, rfl⟩ | ⟨j, inp, t, q, k, r', s', -, hsess, hx, rfl⟩
        | ⟨j, inp, t, x, p, -, hsess, -, rfl⟩ | ⟨j, x, -, hsess, rfl⟩ | ⟨x, o, -, -, rfl⟩
      · exact hkeep hr (fun _ => ⟨_, rfl⟩)
      · by_cases he : i = j
        · subst he
          exact ⟨_, upd_self _ _ _⟩
        · exact hkeep (((exec_locks (R := Unit) hx).2 r i he).mp hr) (fun _ => ⟨_, rfl⟩)
      · exact hkeep hr (fun _ => ⟨_, rfl⟩)
      · obtain ⟨hl, hne⟩ := mem_release.mp hr
        exact hkeep hl (fun he => absurd he hne)
      · exact ih hr

/-- **A property of what a session holds and has left**, if every statement keeps it. -/
theorem Reachable.tracked {P : Sid → Tag → Prog Stmt Ans ε α → Set Res → Prop} {db : Db} {aux : Aux}
    (hstart : ∀ i t, P i t (S.start t) ∅)
    (hcall : ∀ i t q k H inp db aux e, P i t (.call q k) H → S.run q inp i db aux = some e →
      P i t (k e.ans) (e.held rank H))
    (hagain : ∀ i t a p H, P i t (.ret a) H → S.again t = some p → P i t p H)
    (h : Reachable S (Store.init db aux) w) :
    ∀ i t p, w.sess i = some (t, p) → ∃ H, Holds rank w.store i H ∧ P i t p H := by
  induction h with
  | init => exact fun i t p hp => absurd hp (by simp [World.init])
  | tail hr hs ih =>
      rename_i w₁ w₂ a
      intro i t p hp
      have hupd : ∀ {j : Sid} {x : Option (Tag × Prog Stmt Ans ε α)}, i ≠ j →
          upd w₁.sess j x i = some (t, p) → ∃ H, Holds rank w₁.store i H ∧ P i t p H :=
        fun he hj => ih i t p ((upd_ne _ _ he).symm.trans hj)
      rcases step_cases hs with ⟨t', -, rfl⟩ | ⟨j, inp, t', q, k, r, s', -, hsess, hx, rfl⟩
        | ⟨j, inp, t', x, p', -, hsess, hag, rfl⟩ | ⟨j, x, -, hsess, rfl⟩ | ⟨x, o, -, -, rfl⟩
      · by_cases he : i = w₁.next
        · subst he
          obtain ⟨rfl, rfl⟩ :=
            Prod.mk.inj (Option.some.inj ((upd_self w₁.sess w₁.next _).symm.trans hp))
          refine ⟨∅, fun x _ =>
            ⟨fun hl => ?_, fun hl => absurd hl (Set.notMem_empty x)⟩, hstart _ t'⟩
          obtain ⟨y, hy⟩ := hr.attended hl
          exact absurd (hr.signed.born _ _ hy) (Nat.lt_irrefl _)
        · exact hupd he hp
      · obtain ⟨⟨e, he, rfl, hheld⟩, hothers⟩ := exec_locks (R := R) hx
        by_cases hij : i = j
        · subst hij
          obtain ⟨rfl, rfl⟩ := Prod.mk.inj (Option.some.inj ((upd_self w₁.sess i _).symm.trans hp))
          obtain ⟨H, hH, hP⟩ := ih i t' _ hsess
          exact ⟨e.held rank H, hheld rank H hH, hcall i t' q k H inp _ _ e hP he⟩
        · obtain ⟨H, hH, hP⟩ := hupd hij hp
          exact ⟨H, fun x hx => (hothers x i hij).trans (hH x hx), hP⟩
      · by_cases hij : i = j
        · subst hij
          obtain ⟨rfl, rfl⟩ := Prod.mk.inj (Option.some.inj ((upd_self w₁.sess i _).symm.trans hp))
          obtain ⟨H, hH, hP⟩ := ih i t' _ hsess
          exact ⟨H, hH, hagain i t' x p' H hP hag⟩
        · exact hupd hij hp
      · by_cases hij : i = j
        · subst hij
          exact absurd ((upd_self w₁.sess i _).symm.trans hp) (by simp)
        · obtain ⟨H, hH, hP⟩ := hupd hij hp
          exact ⟨H, fun x hx =>
            (mem_release.trans ⟨fun hl => hl.1, fun hl => ⟨hl, hij⟩⟩).trans (hH x hx), hP⟩
      · exact ih i t p hp

end held

/-! ## What statements find -/

/-- All resources count. -/
def everything : Res → Option Unit := fun _ => some ()

/-- The weakest precondition, on everything session `i` holds, for each statement of `p` to be
issued while `ask` holds of it, and for `p` to end in `Q`. -/
def Equipped (E : Engine Db Write Res Aux Stmt Inp Env ε Ans)
    (ask : Stmt → Set Res → Prop) (i : Sid) :
    Prog Stmt Ans ε β → (Except ε β → Set Res → Prop) → Set Res → Prop
  | .ret a, Q, H => Q (.ok a) H
  | .raise e, Q, H => Q (.error e) H
  | .call q k, Q, H => ask q H ∧ ∀ inp db aux e, E.run q inp i db aux = some e →
      Equipped E ask i (k e.ans) Q (e.held everything H)

section equipped

variable {E : Engine Db Write Res Aux Stmt Inp Env ε Ans} {ask : Stmt → Set Res → Prop} {i : Sid}
  {p : Prog Stmt Ans ε β} {Q : Except ε β → Set Res → Prop} {H : Set Res}

theorem Equipped.mono {ask' : Stmt → Set Res → Prop} {Q' : Except ε β → Set Res → Prop}
    (hp : Equipped E ask i p Q H) (hask : ∀ q H, ask q H → ask' q H) (hQ : ∀ r H, Q r H → Q' r H) :
    Equipped E ask' i p Q' H := by
  induction p generalizing H with
  | ret a => exact hQ _ _ hp
  | raise e => exact hQ _ _ hp
  | call q k ih => exact ⟨hask q H hp.1, fun inp db aux e he => ih e.ans (hp.2 inp db aux e he)⟩

theorem Equipped.handle {f : Except ε β → Prog Stmt Ans ε γ} {Q' : Except ε γ → Set Res → Prop}
    (hp : Equipped E ask i p Q H) (hf : ∀ r H, Q r H → Equipped E ask i (f r) Q' H) :
    Equipped E ask i (p.handle f) Q' H := by
  induction p generalizing H with
  | ret a => exact hf _ _ hp
  | raise e => exact hf _ _ hp
  | call q k ih => exact ⟨hp.1, fun inp db aux e he => ih e.ans (hp.2 inp db aux e he)⟩

theorem Equipped.bind {f : β → Prog Stmt Ans ε γ} {Q' : Except ε γ → Set Res → Prop}
    (hp : Equipped E ask i p Q H) (hf : ∀ a H, Q (.ok a) H → Equipped E ask i (f a) Q' H)
    (he : ∀ e H, Q (.error e) H → Q' (.error e) H) : Equipped E ask i (p >>= f) Q' H := by
  refine hp.handle (fun r H hr => ?_)
  cases r with
  | ok a => exact hf a H hr
  | error e => exact he e H hr

theorem Equipped.perform {q : Stmt} {Q : Except ε (Ans q) → Set Res → Prop} (hq : ask q H)
    (h : ∀ inp db aux e, E.run q inp i db aux = some e → Q e.ans (e.held everything H)) :
    Equipped E ask i (Prog.perform q) Q H := by
  refine ⟨hq, fun inp db aux e he => ?_⟩
  have hQ := h inp db aux e he
  cases hr : e.ans with
  | ok a => rw [hr] at hQ; exact hQ
  | error x => rw [hr] at hQ; exact hQ

/-- A program whose statements can be issued anyhow. -/
theorem Equipped.uses (hp : p.Uses (fun q => ∀ H, ask q H)) (hQ : ∀ r H, Q r H) :
    Equipped E ask i p Q H := by
  induction p generalizing H with
  | ret a => exact hQ _ _
  | raise e => exact hQ _ _
  | call q k ih => exact ⟨hp.1 H, fun inp db aux e _ => ih e.ans (hp.2 e.ans)⟩

/-- What is held of the ranked resources is among what is held. -/
theorem Effect.held_subset {rank : Res → Option R} (e : Effect Write Res Aux ε β) {H H' : Set Res}
    (h : H' ⊆ H) : e.held rank H' ⊆ e.held everything H := by
  unfold Effect.held
  cases e.ctl with
  | stay => exact Set.union_subset_union h (fun r hr => ⟨hr.1, rfl⟩)
  | commit => exact Set.Subset.refl _
  | abort => exact Set.Subset.refl _

variable [Preorder R] {rank rank' : Res → Option R}

/-- A program climbs if `ask` puts every statement above what is held. -/
theorem Equipped.climbs {H' : Set Res} (hp : Equipped E ask i p Q H) (hH : H' ⊆ H)
    (habove : ∀ q H H', ask q H → H' ⊆ H → ∀ inp db aux e, E.run q inp i db aux = some e →
      Above rank H' e.locks) : Climbs E rank i p (fun r H' => ∃ H, H' ⊆ H ∧ Q r H) H' := by
  induction p generalizing H H' with
  | ret a => exact ⟨H, hH, hp⟩
  | raise e => exact ⟨H, hH, hp⟩
  | call q k ih =>
      intro inp db aux e he
      exact ⟨habove q H H' hp.1 hH inp db aux e he, ih e.ans (hp.2 inp db aux e he)
        (e.held_subset hH)⟩

/-- **Another rank does as well**, where the two agree on whatever the program asks for. -/
theorem Climbs.rerank {Q₀ : Except ε β → Set Res → Prop} {H₀ : Set Res} (h : Climbs E rank i p Q H)
    (hp : Equipped E ask i p Q₀ H₀) (hH : ∀ r ∈ H, rank r = rank' r)
    (hagree : ∀ q H, ask q H → ∀ inp db aux e, E.run q inp i db aux = some e →
      ∀ r ∈ e.locks, rank r = rank' r) : Climbs E rank' i p Q H := by
  induction p generalizing H H₀ with
  | ret a => exact h
  | raise e => exact h
  | call q k ih =>
      intro inp db aux e he
      have hlocks := hagree q H₀ hp.1 inp db aux e he
      obtain ⟨habove, hk⟩ := h inp db aux e he
      refine ⟨fun r hr hnot x hx g hg y hy => ?_, ?_⟩
      · exact habove r hr hnot x ((hlocks r hr).trans hx) g hg y ((hH g hg).trans hy)
      · have hset : {r | r ∈ e.locks ∧ (rank r).isSome} = {r | r ∈ e.locks ∧ (rank' r).isSome} := by
          ext r
          exact and_congr_right (fun hr => by rw [hlocks r hr])
        have hheld : e.held rank' H = e.held rank H := by
          unfold Effect.held
          rw [hset]
        rw [hheld]
        refine ih e.ans hk (hp.2 inp db aux e he) (fun r hr => ?_)
        unfold Effect.held at hr
        cases hctl : e.ctl with
        | stay =>
            rw [hctl] at hr
            rcases hr with hr | hr
            · exact hH r hr
            · exact hlocks r hr.1
        | commit => rw [hctl] at hr; exact absurd hr (Set.notMem_empty r)
        | abort => rw [hctl] at hr; exact absurd hr (Set.notMem_empty r)

end equipped

/-! ## Somebody can go on -/

/-- Among finitely many that do not wait in a circle, one waits for none of the others. -/
theorem exists_last {r : Sid → Sid → Prop} (hacyc : ∀ i, ¬Relation.TransGen r i i)
    {U : Set Sid} {n : Sid}
    (hU : ∀ i ∈ U, i < n) (hne : U.Nonempty) : ∃ i ∈ U, ∀ j ∈ U, ¬r i j := by
  have hfin : Finite U := Set.Finite.subset (Set.finite_lt_nat n) hU
  let later : U → U → Prop := fun a b => Relation.TransGen r b.1 a.1
  have htrans : IsTrans U later := ⟨fun _ _ _ hab hbc => Relation.TransGen.trans hbc hab⟩
  have hirrefl : Std.Irrefl later := ⟨fun a ha => hacyc a.1 ha⟩
  obtain ⟨i, hi⟩ := hne
  obtain ⟨m, -, hm⟩ := (Finite.wellFounded_of_trans_of_irrefl later).has_min Set.univ
    ⟨⟨i, hi⟩, trivial⟩
  exact ⟨m.1, m.2, fun j hj hr => hm ⟨j, hj⟩ trivial (.single hr)⟩

section able

variable [DecidableEq Res] [Preorder R] {S : System Db Write Res Aux Stmt Inp Env ε Tag α Ans}
  {w : World Db Write Res Aux Stmt Inp ε Tag α Ans} {rank : Res → Option R} {good : Inp → Prop}

/-- A statement is executed if nobody else holds what it asks for. -/
theorem works_of_free {i : Sid} {t : Tag} {q : Stmt} {k : Except ε (Ans q)
    → Prog Stmt Ans ε α} {inp : Inp}
    {e : Effect Write Res Aux ε (Ans q)} (hsess : w.sess i = some (t, .call q k)) (hgood : good inp)
    (he : S.run q inp i (w.store.view S.toEngine i) w.store.aux = some e)
    (hfree : ∀ r ∈ e.locks, ∀ j, (r, j) ∈ w.store.locks → j = i) : ∃ w₁, Works S good w w₁ := by
  have hblocked : w.store.blocked i e.locks = false := by
    unfold Store.blocked
    rw [List.any_eq_false]
    intro x hx hb
    obtain ⟨hmem, hne⟩ := Bool.and_eq_true_iff.mp hb
    exact of_decide_eq_true hne (hfree x.1 (of_decide_eq_true hmem) x.2 hx)
  have hx : exec S.toEngine i t q inp w.store
      = some (e.ans, (w.store.observe i t q inp e.ans.isOk).settle S.toEngine i t e) := by
    unfold exec
    rw [he]
    simp only [hblocked, Bool.false_eq_true, if_false]
  exact ⟨_, .exec hsess hgood hx⟩

/-- **Among sessions that wait in ascending order somebody can go on**, if each of them has a good
choice for its statement under which it waits for nobody else. -/
theorem exists_able {U : Set Sid} (hexcl : Exclusive w.store)
    (hclimb : ∀ i t p, w.sess i = some (t, p) →
      ∃ H, Holds rank w.store i H ∧ Climbs S.toEngine rank i p (fun _ H => H = ∅) H)
    (hU : ∀ i ∈ U, i < w.next) (hne : U.Nonempty)
    (hready : ∀ i ∈ U, ∃ t q k inp e, w.sess i = some (t, .call q k) ∧ good inp
      ∧ S.run q inp i (w.store.view S.toEngine i) w.store.aux = some e
      ∧ ∀ r ∈ e.locks, ∀ j, (r, j) ∈ w.store.locks → j ≠ i → (rank r).isSome ∧ j ∈ U) :
    ∃ w₁, Works S good w w₁ := by
  obtain ⟨i, hi, hlast⟩ := exists_last (acyclic hexcl hclimb) hU hne
  obtain ⟨t, q, k, inp, e, hsess, hgood, he, hlocks⟩ := hready i hi
  refine works_of_free hsess hgood he (fun r hr j hj => ?_)
  by_contra hne
  obtain ⟨hrank, hjU⟩ := hlocks r hr j hj hne
  obtain ⟨x, hx⟩ := Option.isSome_iff_exists.mp hrank
  exact hlast j hjU ⟨x, Ne.symm hne, t, q, k, inp, e, r, hsess, he, hr, hx, hj⟩

end able

/-! ## Waiting for nobody -/

section looks

/-- A statement that only looks is answered whatever the choices, takes nothing and
leaves nothing. -/
def Engine.Looks (E : Engine Db Write Res Aux Stmt Inp Env ε Ans) (q : Stmt) : Prop :=
  ∀ inp i db aux, ∃ e, E.run q inp i db aux = some e ∧ e.locks = [] ∧ e.writes = []
    ∧ e.ctl ≠ .commit

theorem Trail.looks {E : Engine Db Write Res Aux Stmt Inp Env ε Ans} {i : Sid} {t : Tag}
    {p p' : Prog Stmt Ans ε α} {ws ws' : List Write} {os : List (Obs Db Aux Stmt Inp Tag)}
    (h : Trail E i t p ws os p' ws') (hp : p.Uses E.Looks) (hws : ws = []) : ws' = [] := by
  induction h with
  | nil => exact hws
  | @cons q k inp db aux n e os p ws ws' hrun _ ih =>
      subst hws
      obtain ⟨e', he', -, hwrites, -⟩ := hp.1 inp i (E.applyAll db []) aux
      obtain rfl := Option.some.inj (he'.symm.trans hrun)
      refine ih (hp.2 _) ?_
      unfold Effect.buffer
      cases e'.ctl with
      | stay => rw [hwrites, List.append_nil]
      | commit => rfl
      | abort => rfl

variable [DecidableEq Res] {S : System Db Write Res Aux Stmt Inp Env ε Tag α Ans}
  {w : World Db Write Res Aux Stmt Inp ε Tag α Ans} {i : Sid} {t : Tag} {p : Prog Stmt Ans ε α}

/-- A session that only looks has nothing to be waited for. -/
theorem Reachable.looks {db : Db} {aux : Aux} (h : Reachable S (Store.init db aux) w)
    (hsess : w.sess i = some (t, p)) (hagain : S.again t = none)
    (hp : (S.start t).Uses S.toEngine.Looks) :
    Idle i w.store ∧ p.Uses S.toEngine.Looks := by
  have hnone : ∀ i t p, w.sess i = some (t, p) → ∃ H, Holds everything w.store i H
      ∧ (S.again t = none → (S.start t).Uses S.toEngine.Looks
        → p.Uses S.toEngine.Looks ∧ H = ∅) := by
    refine h.tracked (P := fun _ t p H => S.again t = none → (S.start t).Uses S.toEngine.Looks →
      p.Uses S.toEngine.Looks ∧ H = ∅) (fun _ _ _ hp => ⟨hp, rfl⟩) ?_
      (fun _ t a p H _ hag hno => absurd (hag.symm.trans hno) (by simp))
    intro i t q k H inp db aux e hP he hag hp
    obtain ⟨⟨hq, hk⟩, rfl⟩ := hP hag hp
    obtain ⟨e', he', hlocks, -, -⟩ := hq inp i db aux
    obtain rfl := Option.some.inj (he'.symm.trans he)
    refine ⟨hk e'.ans, ?_⟩
    unfold Effect.held
    rw [hlocks]
    cases e'.ctl with
    | stay => simp
    | commit => rfl
    | abort => rfl
  obtain ⟨H, hH, hempty⟩ := hnone i t p hsess
  obtain ⟨huses, rfl⟩ := hempty hagain hp
  have htrail := h.trail.2 i t p hsess hagain
  exact ⟨⟨htrail.looks hp rfl, fun r hr => (hH r rfl).mp hr⟩, huses⟩

/-- It can go on at once, and the database stays as it is. -/
theorem step_looking {q : Stmt} {k : Except ε (Ans q) → Prog Stmt Ans ε α}
    (hsess : w.sess i = some (t, .call q k))
    (hq : S.toEngine.Looks q) (inp : Inp) :
    ∃ w₁ r, S.step w (.exec i inp) = some w₁ ∧ w₁.sess i = some (t, k r)
      ∧ w₁.store.db = w.store.db := by
  obtain ⟨e, he, hlocks, -, hctl⟩ := hq inp i (w.store.view S.toEngine i) w.store.aux
  have hfree : w.store.blocked i e.locks = false := by
    rw [hlocks]
    simp [Store.blocked]
  refine ⟨⟨(w.store.observe i t q inp e.ans.isOk).settle S.toEngine i t e,
    upd w.sess i (some (t, k e.ans)), w.next⟩, e.ans, ?_, upd_self _ _ _, ?_⟩
  · rw [System.step, hsess]
    simp only [exec, he, hfree, Bool.false_eq_true, if_false]
  · show (Store.settle _ _ _ _ _).db = _
    unfold Store.settle
    cases h : e.ctl with
    | stay => rfl
    | commit => exact absurd h hctl
    | abort => rfl

/-- **A session that only looks gets done by itself**, whatever the others hold and whatever it is
answered, and the database is as it was. -/
theorem runs_looking {n : Nat} (hsess : w.sess i = some (t, p)) (hp : p.Uses S.toEngine.Looks)
    (hn : p.AtMost n)
    (f : Nat → Inp) : ∃ m w₁ r, m ≤ n
      ∧ S.runs w ((List.range m).map (fun k => .exec i (f k))) = some w₁
      ∧ w₁.sess i = some (t, Prog.ofExcept r) ∧ w₁.store.db = w.store.db := by
  induction p generalizing w n f with
  | ret a => exact ⟨0, w, .ok a, Nat.zero_le n, rfl, hsess, rfl⟩
  | raise e => exact ⟨0, w, .error e, Nat.zero_le n, rfl, hsess, rfl⟩
  | call q k ih =>
      obtain ⟨w₀, r₀, hstep, hsess₀, hdb⟩ := step_looking hsess hp.1 (f 0)
      obtain ⟨m, w₁, r, hm, hruns, hend, hsame⟩ := ih r₀ hsess₀ (hp.2 r₀) (hn.2 r₀)
        (fun k => f (k + 1))
      have hpos := hn.1
      refine ⟨m + 1, w₁, r, by omega, ?_, hend, hsame.trans hdb⟩
      rw [List.range_succ_eq_map, List.map_cons, List.map_map, System.runs, hstep]
      exact hruns

end looks

end Isolation
