import WalletLedger.Isolation.Trail

/-!
# Runs of one session after the other

A run in which every session is started when the ones before it have ended, and is
then left to end itself. What happened in such a run is in order: the history of one
session is over when the history of the next begins.

`runAlone` is the sequential reading of a single program on a store, with the same
choices made for every statement.
-/

namespace Isolation

variable {Db Write Res Aux Stmt Inp Env ε Tag α : Type} {Ans : Stmt → Type} [DecidableEq Res]
  {S : System Db Write Res Aux Stmt Inp Env ε Tag α Ans}
  {w w₁ : World Db Write Res Aux Stmt Inp ε Tag α Ans} {a : Action Tag Inp Env}

/-- Run a program to its end. `none` if a statement has to wait. -/
def runAlone {β : Type} (E : Engine Db Write Res Aux Stmt Inp Env ε Ans) (i : Sid)
    (t : Tag) (inp : Inp) :
    Prog Stmt Ans ε β → Store Db Write Res Aux Stmt Inp Tag →
      Option (Except ε β × Store Db Write Res Aux Stmt Inp Tag)
  | .ret a, s => some (.ok a, s)
  | .raise e, s => some (.error e, s)
  | .call q k, s =>
      match exec E i t q inp s with
      | none => none
      | some (r, s') => runAlone E i t inp (k r) s'

section alone

variable {β γ : Type} {E : Engine Db Write Res Aux Stmt Inp Env ε Ans} {i : Sid}
    {t : Tag} {inp : Inp}
  {s : Store Db Write Res Aux Stmt Inp Tag}

theorem runAlone_perform {q : Stmt} :
    runAlone E i t inp (Prog.perform q) s = exec E i t q inp s := by
  show runAlone E i t inp (.call q Prog.ofExcept) s = _
  rw [runAlone]
  cases hx : exec E i t q inp s with
  | none => rfl
  | some x =>
      obtain ⟨r, s'⟩ := x
      cases r with
      | ok a => rfl
      | error e => rfl

theorem runAlone_call {q : Stmt} {k : Except ε (Ans q) → Prog Stmt Ans ε β} {r : Except ε (Ans q)}
    {s' : Store Db Write Res Aux Stmt Inp Tag} (h : exec E i t q inp s = some (r, s')) :
    runAlone E i t inp (.call q k) s = runAlone E i t inp (k r) s' := by
  rw [runAlone, h]

/-- The second part runs where the first has ended. -/
theorem runAlone_handle {p : Prog Stmt Ans ε β} {f : Except ε β → Prog Stmt Ans ε γ}
    {r : Except ε β}
    {s' : Store Db Write Res Aux Stmt Inp Tag} (h : runAlone E i t inp p s = some (r, s')) :
    runAlone E i t inp (p.handle f) s = runAlone E i t inp (f r) s' := by
  induction p generalizing s with
  | ret a => cases h; rfl
  | raise e => cases h; rfl
  | call q k ih =>
      rw [runAlone] at h
      rw [Prog.handle_call, runAlone]
      cases hx : exec E i t q inp s with
      | none => rw [hx] at h; exact absurd h (by simp)
      | some x =>
          rw [hx] at h
          exact ih x.1 h

theorem runAlone_bind {p : Prog Stmt Ans ε β} {f : β → Prog Stmt Ans ε γ} {a : β}
    {s' : Store Db Write Res Aux Stmt Inp Tag} (h : runAlone E i t inp p s = some (.ok a, s')) :
    runAlone E i t inp (p >>= f) s = runAlone E i t inp (f a) s' := runAlone_handle h

theorem runAlone_bind_error {p : Prog Stmt Ans ε β} {f : β → Prog Stmt Ans ε γ} {e : ε}
    {s' : Store Db Write Res Aux Stmt Inp Tag} (h : runAlone E i t inp p s = some (.error e, s')) :
    runAlone E i t inp (p >>= f) s = some (.error e, s') := runAlone_handle h

end alone

/-- Session `i` has nothing left to do. -/
def Finished (S : System Db Write Res Aux Stmt Inp Env ε Tag α Ans)
    (w : World Db Write Res Aux Stmt Inp ε Tag α Ans) (i : Sid) : Prop :=
  ∃ t r, w.sess i = some (t, Prog.ofExcept r) ∧ S.again t = none

/-- A session starts when all before it are done, and none is cut short. -/
def OneAtATime (S : System Db Write Res Aux Stmt Inp Env ε Tag α Ans)
    (w : World Db Write Res Aux Stmt Inp ε Tag α Ans) : Action Tag Inp Env → Prop
  | .spawn t => S.again t = none ∧ ∀ i < w.next, Finished S w i
  | .exec _ _ => True
  | .crash _ => False
  | .env _ => True

/-- History in order. -/
structure Sequential (S : System Db Write Res Aux Stmt Inp Env ε Tag α Ans)
    (w : World Db Write Res Aux Stmt Inp ε Tag α Ans) : Prop where
  /-- Only the last session may have something to do. -/
  done : ∀ i, i + 1 < w.next → Finished S w i
  /-- Statements are executed in the order of their sessions. -/
  trace : w.store.trace.Pairwise (fun o o' => o.sid ≤ o'.sid)
  /-- What is committed from a statement on is committed by its session or a later one. -/
  commits : ∀ o ∈ w.store.trace, ∀ (n : Nat) (c : Commit Write Tag), w.store.commits[n]? = some c →
    o.clock ≤ n → o.sid ≤ c.sid

omit [DecidableEq Res] in
/-- A session that is done does not move. -/
theorem Finished.not_call {i : Sid} (h : Finished S w i) {t : Tag} {q : Stmt}
    {k : Except ε (Ans q) → Prog Stmt Ans ε α} : w.sess i ≠ some (t, .call q k) := by
  obtain ⟨t', r, hs, -⟩ := h
  intro he
  rw [hs] at he
  cases r with
  | ok a => exact absurd he (by simp [Prog.ofExcept])
  | error e => exact absurd he (by simp [Prog.ofExcept])

omit [DecidableEq Res] in
theorem Finished.not_again {i : Sid} (h : Finished S w i) {t : Tag} {x : α} {p : Prog Stmt Ans ε α}
    (hs : w.sess i = some (t, .ret x)) : S.again t ≠ some p := by
  obtain ⟨t', r, hs', hag⟩ := h
  rw [hs] at hs'
  injection hs' with hs'
  injection hs' with ht _
  rw [ht, hag]
  simp

omit [DecidableEq Res] in
/-- Another session's move leaves it done. -/
theorem Finished.upd {i j : Sid} (h : Finished S w i) (hij : i ≠ j)
    {x : Option (Tag × Prog Stmt Ans ε α)} {s : Store Db Write Res Aux Stmt Inp Tag} {n : Nat} :
    Finished S ⟨s, Isolation.upd w.sess j x, n⟩ i := by
  obtain ⟨t, r, hs, hag⟩ := h
  exact ⟨t, r, (upd_ne _ _ hij).trans hs, hag⟩

/-- **Sessions that run one at a time leave their history in order.** -/
theorem Guided.sequential {db : Db} {aux : Aux}
    (h : Guided S (OneAtATime S) (Store.init db aux) w) :
    Sequential S w := by
  induction h with
  | init =>
      refine ⟨fun i hi => ?_, ?_, fun o ho => ?_⟩
      · exact absurd hi (by simp [World.init])
      · simp [World.init, Store.init]
      · exact absurd ho (by simp [World.init, Store.init])
  | tail hg hrule hs ih =>
      rename_i w₁ w₂ a
      have hsigned := hg.reachable.signed
      rcases step_cases hs with ⟨t, rfl, rfl⟩ | ⟨i, inp, t, q, k, r, s', -, hsess, hx, rfl⟩
        | ⟨i, inp, t, x, p, -, hsess, hag, rfl⟩ | ⟨i, x, rfl, -, rfl⟩ | ⟨x, o, -, -, rfl⟩
      · refine ⟨fun i hi => ?_, ih.trace, ih.commits⟩
        have hlt : i < w₁.next := Nat.lt_of_succ_lt_succ hi
        exact (hrule.2 i hlt).upd (Nat.ne_of_lt hlt)
      · -- the session that moves is the last one
        have hlast : i + 1 = w₁.next := by
          have hge : ¬(i + 1 < w₁.next) := fun hlt => (ih.done i hlt).not_call hsess
          exact Nat.le_antisymm (hsigned.born i _ hsess) (Nat.not_lt.mp hge)
        have hupto : ∀ j, j < w₁.next → j ≤ i := by
          intro j hj
          rw [← hlast] at hj
          exact Nat.le_of_lt_succ hj
        obtain ⟨l, hl, -, hnew⟩ := exec_history hx
        refine ⟨fun j hj => ?_, ?_, fun o ho n c hc hn => ?_⟩
        · have hj : j + 1 < w₁.next := hj
          exact (ih.done j hj).upd (fun he => (ih.done j hj).not_call (he ▸ hsess))
        · show s'.trace.Pairwise _
          rw [exec_trace hx, List.pairwise_append]
          refine ⟨ih.trace, List.pairwise_singleton _ _, fun o ho o' ho' => ?_⟩
          rw [List.mem_singleton.mp ho']
          exact hupto o.sid (hsigned.trace o ho)
        · have ho : o ∈ s'.trace := ho
          have hc : s'.commits[n]? = some c := hc
          rw [exec_trace hx, List.mem_append] at ho
          rw [hl] at hc
          by_cases hlt : n < w₁.store.commits.length
          · rw [List.getElem?_append_left hlt] at hc
            rcases ho with ho | ho
            · exact ih.commits o ho n c hc hn
            · rw [List.mem_singleton.mp ho] at hn
              exact absurd hlt (Nat.not_lt.mpr hn)
          · rw [List.getElem?_append_right (Nat.not_lt.mp hlt)] at hc
            rw [(hnew c (List.mem_of_getElem? hc)).1]
            rcases ho with ho | ho
            · exact hupto o.sid (hsigned.trace o ho)
            · exact Nat.le_of_eq (congrArg Obs.sid (List.mem_singleton.mp ho))
      · have hge : ¬(i + 1 < w₁.next) := fun hlt => (ih.done i hlt).not_again hsess hag
        refine ⟨fun j hj => ?_, ih.trace, ih.commits⟩
        have hj : j + 1 < w₁.next := hj
        exact (ih.done j hj).upd (by rintro rfl; exact hge hj)
      · exact absurd hrule (by simp [OneAtATime])
      · exact ⟨ih.done, ih.trace, ih.commits⟩

/-- The history is what the sessions have executed, one after the other. -/
theorem Guided.trace_eq {db : Db} {aux : Aux} (h : Guided S (OneAtATime S) (Store.init db aux) w) :
    w.store.trace = (List.range w.next).flatMap w.store.script := by
  induction h with
  | init => rfl
  | tail hg hrule hs ih =>
      rename_i w₁ w₂ a
      have hseq := hg.sequential
      have hsigned := hg.reachable.signed
      rcases step_cases hs with ⟨t, -, rfl⟩ | ⟨i, inp, t, q, k, r, s', -, hsess, hx, rfl⟩
        | ⟨i, inp, t, x, p, -, -, -, rfl⟩ | ⟨i, x, rfl, -, rfl⟩ | ⟨x, o, -, -, rfl⟩
      · have hnew : w₁.store.script w₁.next = [] := hsigned.script_nil (Nat.le_refl _)
        show w₁.store.trace = (List.range (w₁.next + 1)).flatMap w₁.store.script
        rw [List.range_succ, List.flatMap_append, ← ih]
        simp [hnew]
      · -- the session that moves is the last one
        have hlast : w₁.next = i + 1 := by
          have hge : ¬(i + 1 < w₁.next) := fun hlt => (hseq.done i hlt).not_call hsess
          exact Nat.le_antisymm (Nat.not_lt.mp hge) (hsigned.born i _ hsess)
        obtain ⟨⟨e, -, rfl, hscript, -⟩, hothers⟩ := exec_trail hx
        have htrace := exec_trace hx
        show s'.trace = (List.range w₁.next).flatMap s'.script
        have hearlier : (List.range i).flatMap s'.script = (List.range i).flatMap
            w₁.store.script := by
          rw [List.flatMap_def, List.flatMap_def]
          exact congrArg List.flatten (List.map_congr_left
            (fun j hj => (hothers j (Nat.ne_of_lt (List.mem_range.mp hj))).1))
        rw [hlast, List.range_succ, List.flatMap_append] at ih
        rw [hlast, List.range_succ, List.flatMap_append, htrace, ih, hearlier]
        simp [hscript]
      · exact ih
      · exact absurd hrule (by simp [OneAtATime])
      · exact ih

/-! ## Serving a list of moves -/

/-- Whether a session has nothing left to do. -/
def finished (S : System Db Write Res Aux Stmt Inp Env ε Tag α Ans)
    (w : World Db Write Res Aux Stmt Inp ε Tag α Ans) (i : Sid) : Bool :=
  match w.sess i with
  | some (t, .ret _) => (S.again t).isNone
  | some (t, .raise _) => (S.again t).isNone
  | _ => false

omit [DecidableEq Res] in
theorem finished_sound {i : Sid} (h : finished S w i = true) : Finished S w i := by
  unfold finished at h
  split at h
  · rename_i t a hs
    exact ⟨t, .ok a, hs, Option.isNone_iff_eq_none.mp h⟩
  · rename_i t e hs
    exact ⟨t, .error e, hs, Option.isNone_iff_eq_none.mp h⟩
  · exact absurd h (by simp)

/-- Make moves as long as they keep the sessions apart. -/
def System.serves (S : System Db Write Res Aux Stmt Inp Env ε Tag α Ans)
    (w : World Db Write Res Aux Stmt Inp ε Tag α Ans) :
    List (Action Tag Inp Env) → Option (World Db Write Res Aux Stmt Inp ε Tag α Ans)
  | [] => some w
  | .spawn t :: as =>
      if (S.again t).isNone && (List.range w.next).all (finished S w) then
        (S.step w (.spawn t)).bind (fun w' => S.serves w' as)
      else none
  | .crash _ :: _ => none
  | .exec i inp :: as => (S.step w (.exec i inp)).bind (fun w' => S.serves w' as)
  | .env x :: as => (S.step w (.env x)).bind (fun w' => S.serves w' as)

theorem Guided.serves {s₀ : Store Db Write Res Aux Stmt Inp Tag}
    (h : Guided S (OneAtATime S) s₀ w) {as : List (Action Tag Inp Env)}
    (hr : S.serves w as = some w₁) : Guided S (OneAtATime S) s₀ w₁ := by
  induction as generalizing w with
  | nil =>
      injection hr with hr
      subst hr
      exact h
  | cons a as ih =>
      cases a with
      | spawn t =>
          rw [System.serves] at hr
          split at hr
          · rename_i hok
            obtain ⟨hag, hall⟩ := Bool.and_eq_true_iff.mp hok
            obtain ⟨w', hs, hr⟩ := Option.bind_eq_some_iff.mp hr
            have hrule : OneAtATime S w (.spawn t) := ⟨Option.isNone_iff_eq_none.mp hag, fun i hi =>
              finished_sound (List.all_eq_true.mp hall i (List.mem_range.mpr hi))⟩
            exact ih (h.tail hrule hs) hr
          · exact absurd hr (by simp)
      | crash i => exact absurd hr (by simp [System.serves])
      | exec i inp =>
          obtain ⟨w', hs, hr⟩ := Option.bind_eq_some_iff.mp hr
          have hrule : OneAtATime S w (.exec i inp) := trivial
          exact ih (h.tail hrule hs) hr
      | env x =>
          obtain ⟨w', hs, hr⟩ := Option.bind_eq_some_iff.mp hr
          have hrule : OneAtATime S w (.env x) := trivial
          exact ih (h.tail hrule hs) hr

end Isolation
