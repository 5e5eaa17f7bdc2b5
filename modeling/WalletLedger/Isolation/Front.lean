import WalletLedger.Isolation.Trail

/-!
# A front before a system

Sessions that first find out something for themselves, then go on as sessions of a system
that is already understood, or end without it. Until they do they only look: nothing is
written, locked or committed, and what is outside stays as it is.

So the system cannot tell that there is a front. `Front.Shadows` pairs a world of the front
with a world of the system in which a session has not moved until it is entered;
`Front.shadows_step` matches every move, and `Front.reachable_shadowed` is the refinement:
whatever holds of the committed writes in every run of the system holds of them in every run
of the front.

Who is entered and who is turned away, a `Gate` says, from what the session has executed. A
faithful front keeps to its gate: a session that has ended has ended as the system's has, after
executing what it is admitted for, or has executed what it is dismissed for.
-/

namespace Isolation

variable {Db Write Res Aux Stmt Inp Env ε Tag Tag' Look α β γ δ : Type} {Ans : Stmt → Type}
  {LAns : Look → Type}

/-- What the statements of the system and the looks of the front are answered with. -/
@[reducible] def FrontAns (Ans : Stmt → Type) (LAns : Look → Type) : Stmt ⊕ Look → Type
  | .inl q => Ans q
  | .inr l => LAns l

namespace Prog

/-- A program of the system as a session of the front runs it. -/
def behind (f : α → β) : Prog Stmt Ans ε α → Prog (Stmt ⊕ Look) (FrontAns Ans LAns) ε β
  | .ret a => .ret (f a)
  | .raise e => .raise e
  | .call q k => .call (.inl q) (fun r => (k r).behind f)

variable {f : α → β} {g : γ → δ}

@[simp] theorem behind_ret (a : α) :
    ((ret a : Prog Stmt Ans ε α).behind f : Prog (Stmt ⊕ Look) (FrontAns Ans LAns) ε
      β) = ret (f a) :=
  rfl

@[simp] theorem behind_raise (e : ε) :
    ((raise e : Prog Stmt Ans ε α).behind f : Prog (Stmt ⊕ Look) (FrontAns Ans LAns)
      ε β) = raise e :=
  rfl

@[simp] theorem behind_call (q : Stmt) (k : Except ε (Ans q) → Prog Stmt Ans ε α) :
    ((call q k).behind f : Prog (Stmt ⊕ Look) (FrontAns Ans LAns) ε β)
      = call (.inl q) (fun r => (k r).behind f) := rfl

/-- What comes after a program is behind the front as well, if it is so for every end. -/
theorem behind_handle (p : Prog Stmt Ans ε α) {h : Except ε α → Prog Stmt Ans ε γ}
    {h' : Except ε β → Prog (Stmt ⊕ Look) (FrontAns Ans LAns) ε δ}
    (hh : ∀ r, (h r).behind g = h' (r.map f)) :
    (p.handle h).behind g = (p.behind f).handle h' := by
  induction p with
  | ret a => exact hh _
  | raise e => exact hh _
  | call q k ih => simp only [handle_call, behind_call, ih]

theorem behind_ofExcept (r : Except ε α) :
    ((ofExcept r : Prog Stmt Ans ε α).behind f : Prog (Stmt ⊕ Look) (FrontAns Ans LAns) ε β)
      = ofExcept (r.map f) := by
  cases r with
  | ok a => rfl
  | error e => rfl

theorem behind_perform (q : Stmt) :
    ((perform q : Prog Stmt Ans ε (Ans q)).behind id
      : Prog (Stmt ⊕ Look) (FrontAns Ans LAns) ε (Ans q)) = perform (Sum.inl q : Stmt ⊕ Look) := by
  simp only [perform, behind_call, behind_ofExcept, Except.map_id, id_eq]

theorem behind_bind (p : Prog Stmt Ans ε α) (h : α → Prog Stmt Ans ε γ) :
    ((p >>= h).behind g : Prog (Stmt ⊕ Look) (FrontAns Ans LAns) ε δ)
      = p.behind id >>= fun a => (h a).behind g := by
  refine behind_handle p (fun r => ?_)
  cases r with
  | ok a => rfl
  | error e => rfl

/-- Handling what has been handled. -/
theorem handle_handle (p : Prog Stmt Ans ε α) (h : Except ε α → Prog Stmt Ans ε β)
    (h' : Except ε β → Prog Stmt Ans ε γ) :
    (p.handle h).handle h' = p.handle (fun r => (h r).handle h') := by
  induction p with
  | ret a => rfl
  | raise e => rfl
  | call q k ih => exact congrArg (call q) (funext ih)

theorem behind_eq_ret {p : Prog Stmt Ans ε α} {b : β}
    (h : (p.behind f : Prog (Stmt ⊕ Look) (FrontAns Ans LAns) ε β) = .ret b) :
    ∃ a, p = .ret a ∧ b = f a := by
  cases p with
  | ret a => injection h with h; exact ⟨a, rfl, h.symm⟩
  | raise e => exact absurd h (by simp)
  | call q k => exact absurd h (by simp)

theorem behind_eq_raise {p : Prog Stmt Ans ε α} {e : ε}
    (h : (p.behind f : Prog (Stmt ⊕ Look) (FrontAns Ans LAns) ε β) = .raise e) : p = .raise e := by
  cases p with
  | ret a => exact absurd h (by simp)
  | raise e => injection h with h; rw [h]
  | call q k => exact absurd h (by simp)

theorem behind_eq_call {p : Prog Stmt Ans ε α} {q : Stmt ⊕ Look}
    {k : Except ε (FrontAns Ans LAns q) → Prog (Stmt ⊕ Look) (FrontAns Ans LAns) ε β}
    (h : p.behind f = .call q k) :
    ∃ (q₀ : Stmt) (k₀ : Except ε (Ans q₀) → Prog Stmt Ans ε α), p = .call q₀ k₀ ∧ q = .inl q₀
      ∧ HEq k (fun r => ((k₀ r).behind f : Prog (Stmt ⊕ Look) (FrontAns Ans LAns) ε β)) := by
  cases p with
  | ret a => exact absurd h (by simp)
  | raise e => exact absurd h (by simp)
  | call q₀ k₀ =>
      injection h with h₁ h₂
      exact ⟨q₀, k₀, rfl, h₁.symm, h₂.symm⟩

end Prog

/-- The engine with looks: each is answered from what the session sees, and one that fails ends
the transaction. -/
def Engine.front (E : Engine Db Write Res Aux Stmt Inp Env ε Ans)
    (look : (l : Look) → Inp → Db → Except ε (LAns l)) :
    Engine Db Write Res Aux (Stmt ⊕ Look) Inp Env ε (FrontAns Ans LAns) where
  apply := E.apply
  footprint := E.footprint
  same := E.same
  same_refl := E.same_refl
  same_trans := E.same_trans
  same_apply := E.same_apply
  run := fun q inp i db aux =>
    match q with
    | .inl q => E.run q inp i db aux
    | .inr l =>
        some { ctl := if (look l inp db).isOk then .stay else .abort, ans := look l inp db,
               aux := aux }
  covers := by
    intro q inp i db aux e h
    cases q with
    | inl q => exact E.covers h
    | inr l =>
        cases h
        intro w hw
        exact absurd hw (by simp)
  env := E.env
  crash := E.crash

/-- An effect of which only the answer remains. -/
structure Effect.Calm (e : Effect Write Res Aux ε β) (aux : Aux) : Prop where
  locks : e.locks = []
  writes : e.writes = []
  ctl : e.ctl ≠ .commit
  aux : e.aux = aux

/-- A front before the system `S`: what its looks find, what its sessions run, and which session
of the system each of them becomes, if it becomes one. -/
structure Front (S : System Db Write Res Aux Stmt Inp Env ε Tag α Ans) (Look : Type)
    (LAns : Look → Type) (Tag' β : Type) where
  look : (l : Look) → Inp → Db → Except ε (LAns l)
  target : Tag' → Tag
  /-- What is made of the system's answers. -/
  wrap : α → β
  start : Tag' → Prog (Stmt ⊕ Look) (FrontAns Ans LAns) ε β

namespace Front

variable {S : System Db Write Res Aux Stmt Inp Env ε Tag α Ans}

/-- The system with its front. -/
def system (F : Front S Look LAns Tag' β) :
    System Db Write Res Aux (Stmt ⊕ Look) Inp Env ε Tag' β (FrontAns Ans LAns) :=
  { S.toEngine.front F.look with
    start := F.start
    again := fun t => (S.again (F.target t)).map (fun p => p.behind F.wrap) }

/-- A session of the system, as the front runs it. -/
def entered (F : Front S Look LAns Tag' β) (t : Tag') (p : Prog Stmt Ans ε α) :
    Tag' × Prog (Stmt ⊕ Look) (FrontAns Ans LAns) ε β := (t, p.behind F.wrap)

/-- What has to have been executed for a session to enter, and for it to end so without. -/
structure Gate (Db Aux Stmt Inp ε Tag β : Type) where
  admits : Tag → List (Obs Db Aux Stmt Inp Tag) → Prop
  dismisses : Tag → List (Obs Db Aux Stmt Inp Tag) → Except ε β → Prop

/-- What a session that has executed `os` may still do before it is one of the system's: look on,
end as it is dismissed, or enter when it is admitted. -/
inductive Approach (F : Front S Look LAns Tag' β)
    (G : Gate Db Aux (Stmt ⊕ Look) Inp ε Tag' β) (i : Sid)
    (t : Tag') : List (Obs Db Aux (Stmt ⊕ Look) Inp Tag') →
      Prog (Stmt ⊕ Look) (FrontAns Ans LAns) ε β → Prop where
  | enter {os : List (Obs Db Aux (Stmt ⊕ Look) Inp Tag')} (admitted : G.admits t os) :
      Approach F G i t os ((S.start (F.target t)).behind F.wrap)
  | ret {os : List (Obs Db Aux (Stmt ⊕ Look) Inp Tag')} (b : β)
      (dismissed : G.dismisses t os (.ok b)) :
      Approach F G i t os (.ret b)
  | raise {os : List (Obs Db Aux (Stmt ⊕ Look) Inp Tag')} (e : ε)
      (dismissed : G.dismisses t os (.error e)) : Approach F G i t os (.raise e)
  | call {os : List (Obs Db Aux (Stmt ⊕ Look) Inp Tag')} (q : Stmt ⊕ Look)
      (k : Except ε (FrontAns Ans LAns q) → Prog (Stmt ⊕ Look) (FrontAns Ans LAns) ε β)
      (calm : ∀ inp db aux e, F.system.run q inp i db aux = some e → e.Calm aux)
      (rest : ∀ inp db aux n e, F.system.run q inp i db aux = some e →
        Approach F G i t (os ++ [⟨i, t, q, inp, db, aux, e.ans.isOk, n⟩]) (k e.ans)) :
      Approach F G i t os (.call q k)

/-- What is asked of a front: it only looks, by its gate, and sessions that loop do not even do
that. -/
structure Faithful (F : Front S Look LAns Tag' β) (G : Gate Db Aux (Stmt ⊕ Look) Inp ε Tag' β) :
    Prop where
  approach : ∀ i t, F.Approach G i t [] (F.start t)
  loops : ∀ t p, S.again (F.target t) = some p →
    F.start t = (S.start (F.target t)).behind F.wrap ∧ G.admits t []

/-- A program that only looks, and ends as `Q` says of how it ends and of what it has executed. -/
def Looks (F : Front S Look LAns Tag' β) (i : Sid) (t : Tag')
    (Q : List (Obs Db Aux (Stmt ⊕ Look) Inp Tag') → Except ε γ → Prop) :
    List (Obs Db Aux (Stmt ⊕ Look) Inp Tag') → Prog (Stmt ⊕ Look) (FrontAns Ans LAns) ε γ → Prop
  | os, .ret a => Q os (.ok a)
  | os, .raise e => Q os (.error e)
  | os, .call q k => ∀ inp db aux n e, F.system.run q inp i db aux = some e →
      e.Calm aux ∧ F.Looks i t Q (os ++ [⟨i, t, q, inp, db, aux, e.ans.isOk, n⟩]) (k e.ans)

section looks

variable {F : Front S Look LAns Tag' β} {G : Gate Db Aux (Stmt ⊕ Look) Inp ε Tag' β}
    {i : Sid} {t : Tag'}
  {os : List (Obs Db Aux (Stmt ⊕ Look) Inp Tag')}
  {Q : List (Obs Db Aux (Stmt ⊕ Look) Inp Tag') → Except ε γ → Prop}
  {Q' : List (Obs Db Aux (Stmt ⊕ Look) Inp Tag') → Except ε δ → Prop}
  {p : Prog (Stmt ⊕ Look) (FrontAns Ans LAns) ε γ}

theorem Looks.mono {Q' : List (Obs Db Aux (Stmt ⊕ Look) Inp Tag') → Except ε γ → Prop}
    (hp : F.Looks i t Q os p) (hQ : ∀ os r, Q os r → Q' os r) : F.Looks i t Q' os p := by
  induction p generalizing os with
  | ret a => exact hQ _ _ hp
  | raise e => exact hQ _ _ hp
  | call q k ih =>
      intro inp db aux n e he
      obtain ⟨hcalm, hk⟩ := hp inp db aux n e he
      exact ⟨hcalm, ih e.ans hk⟩

theorem Looks.handle {f : Except ε γ → Prog (Stmt ⊕ Look) (FrontAns Ans LAns) ε δ}
    (hp : F.Looks i t Q os p) (hf : ∀ os' r, Q os' r → F.Looks i t Q' os' (f r)) :
    F.Looks i t Q' os (p.handle f) := by
  induction p generalizing os with
  | ret a => exact hf _ _ hp
  | raise e => exact hf _ _ hp
  | call q k ih =>
      intro inp db aux n e he
      obtain ⟨hcalm, hk⟩ := hp inp db aux n e he
      exact ⟨hcalm, ih e.ans hk⟩

/-- An exception skips the second part. -/
theorem Looks.bind {f : γ → Prog (Stmt ⊕ Look) (FrontAns Ans LAns) ε δ} (hp : F.Looks i t Q os p)
    (hf : ∀ os' a, Q os' (.ok a) → F.Looks i t Q' os' (f a))
    (he : ∀ os' e, Q os' (.error e) → Q' os' (.error e)) : F.Looks i t Q' os (p >>= f) := by
  refine hp.handle (fun os' r hr => ?_)
  cases r with
  | ok a => exact hf os' a hr
  | error e => exact he os' e hr

theorem Looks.map {f : γ → δ} (hp : F.Looks i t (fun os r => Q' os (r.map f)) os p) :
    F.Looks i t Q' os (f <$> p) :=
  hp.bind (fun _ _ ha => ha) (fun _ _ h => h)

theorem Looks.perform {q : Stmt ⊕ Look}
    {Q : List (Obs Db Aux (Stmt ⊕ Look) Inp Tag') → Except ε (FrontAns Ans LAns q) → Prop}
    (h : ∀ inp db aux n e, F.system.run q inp i db aux = some e →
      e.Calm aux ∧ Q (os ++ [⟨i, t, q, inp, db, aux, e.ans.isOk, n⟩]) e.ans) :
    F.Looks i t Q os (Prog.perform q) := by
  intro inp db aux n e he
  obtain ⟨hcalm, hq⟩ := h inp db aux n e he
  refine ⟨hcalm, ?_⟩
  cases ha : e.ans with
  | ok a => rw [ha] at hq; exact hq
  | error x => rw [ha] at hq; exact hq

/-- Look first, then go on as a session that may still enter. -/
theorem Looks.enter {f : Except ε γ → Prog (Stmt ⊕ Look) (FrontAns Ans LAns) ε β}
    (hp : F.Looks i t Q os p) (hf : ∀ os' r, Q os' r → F.Approach G i t os' (f r)) :
    F.Approach G i t os (p.handle f) := by
  induction p generalizing os with
  | ret a => exact hf _ _ hp
  | raise e => exact hf _ _ hp
  | call q k ih =>
      exact .call q _ (fun inp db aux e he => (hp inp db aux 0 e he).1)
        (fun inp db aux n e he => ih e.ans (hp inp db aux n e he).2)

/-- Only looking is one way not to enter. -/
theorem Looks.approach {p : Prog (Stmt ⊕ Look) (FrontAns Ans LAns) ε β}
    (hp : F.Looks i t (G.dismisses t) os p) : F.Approach G i t os p := by
  induction p generalizing os with
  | ret a => exact .ret a hp
  | raise e => exact .raise e hp
  | call q k ih =>
      exact .call q _ (fun inp db aux e he => (hp inp db aux 0 e he).1)
        (fun inp db aux n e he => ih e.ans (hp inp db aux n e he).2)

end looks

/-! ## The worlds a front and a system share -/

/-- A statement of the front as the system saw it, unless it was a look. -/
def shown (F : Front S Look LAns Tag' β) (o : Obs Db Aux (Stmt ⊕ Look) Inp Tag') :
    Option (Obs Db Aux Stmt Inp Tag) :=
  match o.stmt with
  | .inl q => some ⟨o.sid, F.target o.tag, q, o.inp, o.db, o.aux, o.ok, o.clock⟩
  | .inr _ => none

/-- A commit of the front as the system saw it. -/
def committed (F : Front S Look LAns Tag' β) (c : Commit Write Tag') : Commit Write Tag :=
  ⟨c.sid, F.target c.tag, c.writes⟩

/-- One shared state: only the front's looks are missing from the history. -/
structure SameStore (F : Front S Look LAns Tag' β)
    (s' : Store Db Write Res Aux (Stmt ⊕ Look) Inp Tag') (s : Store Db Write Res Aux Stmt Inp Tag) :
    Prop where
  db : s'.db = s.db
  aux : s'.aux = s.aux
  pending : s'.pending = s.pending
  locks : s'.locks = s.locks
  commits : s'.commits.map F.committed = s.commits
  trace : s.trace.Sublist (s'.trace.filterMap F.shown)

/-- How a session of the front that has executed `os` stands to the session of the system with its
id. -/
inductive Stands (F : Front S Look LAns Tag' β) (G : Gate Db Aux (Stmt ⊕ Look) Inp ε Tag' β)
    (os : List (Obs Db Aux (Stmt ⊕ Look) Inp Tag'))
    (s : Store Db Write Res Aux Stmt Inp Tag) (i : Sid) :
    Option (Tag' × Prog (Stmt ⊕ Look) (FrontAns Ans LAns) ε β) → Option (Tag × Prog Stmt Ans ε α) →
    Prop where
  | gone : Stands F G os s i none none
  /-- Entered: both run one program. -/
  | inside (t : Tag') (p : Prog Stmt Ans ε α) {pre : List (Obs Db Aux (Stmt ⊕ Look) Inp Tag')}
      (before : pre <+: os) (admitted : G.admits t pre) :
      Stands F G os s i (some (F.entered t p)) (some (F.target t, p))
  /-- Not entered: the system's session has not moved. -/
  | before (t : Tag') (p : Prog (Stmt ⊕ Look) (FrontAns Ans LAns) ε β) (fresh : Fresh i s)
      (once : S.again (F.target t) = none) (approach : F.Approach G i t os p) :
      Stands F G os s i (some (t, p)) (some (F.target t, S.start (F.target t)))

/-- A world of the front and the world of the system behind it. -/
structure Shadows (F : Front S Look LAns Tag' β) (G : Gate Db Aux (Stmt ⊕ Look) Inp ε Tag' β)
    (w' : World Db Write Res Aux (Stmt ⊕ Look) Inp ε Tag' β (FrontAns Ans LAns))
    (w : World Db Write Res Aux Stmt Inp ε Tag α Ans) : Prop where
  store : F.SameStore w'.store w.store
  next : w'.next = w.next
  sess : ∀ i, F.Stands G (w'.store.script i) w.store i (w'.sess i) (w.sess i)
  unborn : ∀ i, w.next ≤ i → w.sess i = none ∧ Fresh i w.store

/-- A move of the front as a move of the system. -/
def move (F : Front S Look LAns Tag' β) : Action Tag' Inp Env → Action Tag Inp Env
  | .spawn t => .spawn (F.target t)
  | .exec i inp => .exec i inp
  | .crash i => .crash i
  | .env x => .env x

/-! ## One move -/

variable {F : Front S Look LAns Tag' β} {G : Gate Db Aux (Stmt ⊕ Look) Inp ε Tag' β}
  {s' : Store Db Write Res Aux (Stmt ⊕ Look) Inp Tag'} {s s₁ : Store Db Write Res Aux Stmt Inp Tag}
  {i j : Sid}

theorem SameStore.view (h : F.SameStore s' s) (i : Sid) :
    s'.view F.system.toEngine i = s.view S.toEngine i := by
  rw [Store.view, Store.view, h.db, h.pending]
  rfl

/-- A statement more, and no commit. -/
theorem SameStore.observe (h : F.SameStore s' s) {t : Tag'} {q : Stmt ⊕ Look}
    {inp : Inp} {ok : Bool} :
    F.SameStore (s'.observe i t q inp ok)
      (match q with
        | .inl q => s.observe i (F.target t) q inp ok
        | .inr _ => s) := by
  have hlen : s'.commits.length = s.commits.length := by
    rw [← h.commits, List.length_map]
  cases q with
  | inl q =>
      refine ⟨h.db, h.aux, h.pending, h.locks, h.commits, ?_⟩
      simp only [Store.observe, List.filterMap_append]
      refine h.trace.append ?_
      simp [shown, h.db, h.aux, hlen]
  | inr l =>
      refine ⟨h.db, h.aux, h.pending, h.locks, h.commits, ?_⟩
      simp only [Store.observe, List.filterMap_append]
      exact h.trace.trans (List.sublist_append_left _ _)

theorem committed_record (cs : List (Commit Write Tag')) (i : Sid) (t : Tag') (ws : List Write) :
    (Store.record cs i t ws).map F.committed
      = Store.record (cs.map F.committed) i (F.target t) ws := by
  unfold Store.record
  split
  · rfl
  · simp [committed]

/-- One effect carried out on both sides. -/
theorem SameStore.settle (h : F.SameStore s' s) {t : Tag'} {e : Effect Write Res Aux ε γ} :
    F.SameStore (s'.settle F.system.toEngine i t e) (s.settle S.toEngine i (F.target t) e) := by
  have happly : ∀ (db : Db) (ws : List Write),
      F.system.toEngine.applyAll db ws = S.toEngine.applyAll db ws := fun _ _ => rfl
  unfold Store.settle
  split
  · exact ⟨h.db, rfl, by simp only [h.pending], by simp only [h.locks], h.commits, h.trace⟩
  · refine ⟨by simp only [h.db, h.pending, happly], rfl, by simp only [h.pending],
      by simp only [h.locks], ?_, h.trace⟩
    simp only [committed_record, h.commits, h.pending]
  · exact ⟨h.db, rfl, by simp only [h.pending], by simp only [h.locks], h.commits, h.trace⟩

/-- A calm effect changes nothing for a session that has no transaction open. -/
theorem settle_calm (hi : Idle i s) {t : Tag} {e : Effect Write Res Aux ε γ} (he : e.Calm s.aux) :
    s.settle S.toEngine i t e = s := by
  have hpend : upd s.pending i [] = s.pending := by
    funext j
    by_cases hj : j = i
    · rw [hj, upd_self, hi.pending]
    · rw [upd_ne _ _ hj]
  have hlocks : Store.release s.locks i = s.locks := by
    refine List.filter_eq_self.mpr (fun l hl => ?_)
    refine decide_eq_true (fun h => ?_)
    exact hi.locks l.1 (by rw [← h]; exact hl)
  unfold Store.settle
  split
  · rw [hi.pending, he.writes, he.locks, he.aux, List.append_nil, hpend, List.map_nil,
      List.append_nil]
  · rename_i hc
    exact absurd hc he.ctl
  · rw [hpend, hlocks, he.aux]

variable [DecidableEq Res]

/-- A statement of the system goes through in front of it and behind it alike. -/
theorem SameStore.exec_inl (h : F.SameStore s' s) {t : Tag'} {q : Stmt} {inp : Inp}
    {r : Except ε (Ans q)} {s'₁ : Store Db Write Res Aux (Stmt ⊕ Look) Inp Tag'}
    (hx : exec F.system.toEngine i t (.inl q) inp s' = some (r, s'₁)) :
    ∃ s₁, exec S.toEngine i (F.target t) q inp s = some (r, s₁) ∧ F.SameStore s'₁ s₁ := by
  obtain ⟨e, he, hb, rfl, rfl⟩ := exec_cases hx
  have he' : S.run q inp i (s.view S.toEngine i) s.aux = some e := by
    rw [← h.view, ← h.aux]
    exact he
  have hb' : s.blocked i e.locks = false := by
    unfold Store.blocked at hb ⊢
    rw [← h.locks]
    exact hb
  refine ⟨(s.observe i (F.target t) q inp e.ans.isOk).settle S.toEngine i (F.target t) e, ?_,
    h.observe.settle⟩
  unfold exec
  rw [he']
  simp only [hb']
  rfl

/-- A statement before the system is entered leaves the system as it is. -/
theorem SameStore.exec_calm (h : F.SameStore s' s) (hi : Idle i s) {t : Tag'} {q : Stmt ⊕ Look}
    {inp : Inp} {r : Except ε (FrontAns Ans LAns q)}
    {s'₁ : Store Db Write Res Aux (Stmt ⊕ Look) Inp Tag'}
    (hx : exec F.system.toEngine i t q inp s' = some (r, s'₁))
    (hcalm : ∀ e, F.system.run q inp i (s'.view F.system.toEngine i) s'.aux = some e
      → e.Calm s'.aux) :
    F.SameStore s'₁ s := by
  obtain ⟨e, he, -, -, rfl⟩ := exec_cases hx
  have hi' : Idle i (s'.observe i t q inp e.ans.isOk) :=
    ⟨(congrFun h.pending i).trans hi.pending, fun r hr => hi.locks r (h.locks ▸ hr)⟩
  rw [settle_calm (S := F.system) hi' (hcalm e he)]
  refine ⟨h.db, h.aux, h.pending, h.locks, h.commits, ?_⟩
  simp only [Store.observe, List.filterMap_append]
  exact h.trace.trans (List.sublist_append_left _ _)

/-! ## Other sessions -/

/-- A session that has not moved still has not after a statement of another. -/
theorem fresh_exec {E : Engine Db Write Res Aux Stmt Inp Env ε Ans} {t : Tag} {q : Stmt} {inp : Inp}
    {r : Except ε (Ans q)} (h : Fresh i s) (hij : i ≠ j) (hx : exec E j t q inp s = some (r, s₁)) :
    Fresh i s₁ := by
  have htrace : ∀ o ∈ s₁.trace, o.sid ≠ i := by
    rw [exec_trace hx]
    intro o ho
    rcases List.mem_append.mp ho with ho | ho
    · exact h.trace o ho
    · rw [List.mem_singleton.mp ho]
      exact hij.symm
  obtain ⟨e, -, -, -, rfl⟩ := exec_cases hx
  unfold Store.settle at htrace ⊢
  split at htrace
  · refine ⟨⟨(upd_ne _ _ hij).trans h.pending, fun r hr => ?_⟩, htrace, h.commits⟩
    rcases List.mem_append.mp hr with hr | hr
    · exact h.locks r hr
    · obtain ⟨r', -, he⟩ := List.mem_map.mp hr
      exact hij (congrArg Prod.snd he).symm
  · refine ⟨⟨(upd_ne _ _ hij).trans h.pending, fun r hr => h.locks r
      (mem_release.mp hr).1⟩, htrace, ?_⟩
    obtain ⟨l, hl, -, hn⟩ := record_eq s.commits j t (s.pending j)
    intro c hc
    have hc : c ∈ Store.record s.commits j t (s.pending j) := hc
    rw [hl] at hc
    rcases List.mem_append.mp hc with hc | hc
    · exact h.commits c hc
    · rw [hn c hc]
      exact hij.symm
  · exact ⟨⟨(upd_ne _ _ hij).trans h.pending, fun r hr => h.locks r (mem_release.mp hr).1⟩, htrace,
      h.commits⟩

omit [DecidableEq Res] in
theorem fresh_drop (h : Fresh i s) (j : Sid) : Fresh i (s.drop S.toEngine j) := by
  refine ⟨⟨?_, fun r hr => h.locks r (mem_release.mp hr).1⟩, h.trace, h.commits⟩
  by_cases hij : i = j
  · rw [hij]
    exact upd_self _ _ _
  · exact (upd_ne _ _ hij).trans h.pending

omit [DecidableEq Res] in
/-- Where a session stands depends on the store only by its not having moved. -/
theorem Stands.congr {os : List (Obs Db Aux (Stmt ⊕ Look) Inp Tag')}
    {x : Option (Tag' × Prog (Stmt ⊕ Look) (FrontAns Ans LAns) ε β)}
    {y : Option (Tag × Prog Stmt Ans ε α)} (h : F.Stands G os s i x y)
    (hi : Fresh i s → Fresh i s₁) :
    F.Stands G os s₁ i x y := by
  cases h with
  | gone => exact .gone
  | inside t p before admitted => exact .inside t p before admitted
  | before t p fresh once approach => exact .before t p (hi fresh) once approach

variable {w' w'₁ : World Db Write Res Aux (Stmt ⊕ Look) Inp ε Tag' β (FrontAns Ans LAns)}
  {w : World Db Write Res Aux Stmt Inp ε Tag α Ans}

omit [DecidableEq Res] in
/-- One session moves on both sides, and leaves the others where they are. -/
theorem Shadows.update (h : F.Shadows G w' w) {t : Tag'}
    {p' : Prog (Stmt ⊕ Look) (FrontAns Ans LAns) ε β} (hsess : w'.sess i = some (t, p'))
    {x : Option (Tag' × Prog (Stmt ⊕ Look) (FrontAns Ans LAns) ε β)}
    {y : Option (Tag × Prog Stmt Ans ε α)} (hs : F.SameStore s' s₁)
    (hxy : F.Stands G (s'.script i) s₁ i x y) (hothers : ∀ j, j ≠ i
      → s'.script j = w'.store.script j)
    (hfresh : ∀ j, j ≠ i → Fresh j w.store → Fresh j s₁) :
    F.Shadows G ⟨s', upd w'.sess i x, w'.next⟩ ⟨s₁, upd w.sess i y, w.next⟩ := by
  refine ⟨hs, h.next, fun j => ?_, fun j hj => ?_⟩
  · by_cases hji : j = i
    · subst hji
      simp only [upd_self]
      exact hxy
    · simp only [upd_ne _ _ hji, hothers j hji]
      exact (h.sess j).congr (hfresh j hji)
  · have hji : j ≠ i := by
      rintro rfl
      have hst := h.sess j
      rw [(h.unborn j hj).1, hsess] at hst
      cases hst
    exact ⟨(upd_ne _ _ hji).trans (h.unborn j hj).1, hfresh j hji (h.unborn j hj).2⟩

omit [DecidableEq Res] in
/-- An entered session is one that runs a program of the system. -/
theorem Shadows.session (h : F.Shadows G w' w) {t : Tag'}
    {p' : Prog (Stmt ⊕ Look) (FrontAns Ans LAns) ε β} (hsess : w'.sess i = some (t, p')) :
    (∃ p pre, p' = p.behind F.wrap ∧ w.sess i = some (F.target t, p) ∧ pre <+: w'.store.script i
        ∧ G.admits t pre)
      ∨ (w.sess i = some (F.target t, S.start (F.target t)) ∧ Fresh i w.store
          ∧ S.again (F.target t) = none ∧ F.Approach G i t (w'.store.script i) p') := by
  have hst := h.sess i
  rw [hsess] at hst
  generalize hy : w.sess i = y at hst
  cases hst with
  | inside t p before admitted => exact .inl ⟨p, _, rfl, rfl, before, admitted⟩
  | before t p fresh once approach => exact .inr ⟨rfl, fresh, once, approach⟩

omit [DecidableEq Res] in
/-- **How a session ends**: as the system's, with what it was admitted for, or as it was dismissed,
without the system. -/
theorem Shadows.ended (h : F.Shadows G w' w) {t : Tag'} {r : Except ε β}
    (hsess : w'.sess i = some (t, Prog.ofExcept r)) :
    (∃ r₀ pre, w.sess i = some (F.target t, Prog.ofExcept r₀) ∧ r = r₀.map F.wrap
        ∧ pre <+: w'.store.script i ∧ G.admits t pre)
      ∨ (Fresh i w.store ∧ G.dismisses t (w'.store.script i) r) := by
  -- what has ended behind the front
  have hbehind : ∀ {p : Prog Stmt Ans ε α},
      (Prog.ofExcept r : Prog (Stmt ⊕ Look) (FrontAns Ans LAns) ε β) = p.behind F.wrap →
      ∃ r₀, p = Prog.ofExcept r₀ ∧ r = r₀.map F.wrap := by
    intro p hp
    cases r with
    | ok b =>
        obtain ⟨a, rfl, rfl⟩ := Prog.behind_eq_ret hp.symm
        exact ⟨.ok a, rfl, rfl⟩
    | error e =>
        obtain rfl := Prog.behind_eq_raise hp.symm
        exact ⟨.error e, rfl, rfl⟩
  rcases h.session hsess with ⟨p, pre, hp, hbase, hpre, hadm⟩ | ⟨hbase, hfresh, -, happ⟩
  · obtain ⟨r₀, rfl, hr⟩ := hbehind hp
    exact .inl ⟨r₀, pre, hbase, hr, hpre, hadm⟩
  · generalize hos : w'.store.script i = os at happ
    generalize hp : Prog.ofExcept r = p at happ
    cases happ with
    | enter admitted =>
        obtain ⟨r₀, hstart, hr⟩ := hbehind hp
        exact .inl ⟨r₀, os, by rw [hbase, hstart], hr, List.prefix_rfl, admitted⟩
    | ret b dismissed =>
        obtain rfl := Prog.ofExcept_inj (show Prog.ofExcept r = Prog.ofExcept (.ok b) from hp)
        exact .inr ⟨hfresh, dismissed⟩
    | raise e dismissed =>
        obtain rfl := Prog.ofExcept_inj (show Prog.ofExcept r = Prog.ofExcept (.error e) from hp)
        exact .inr ⟨hfresh, dismissed⟩
    | call q k => cases r <;> exact absurd hp (by simp [Prog.ofExcept])

/-- **A statement of a session**: a look the system does not notice, or the same statement there. -/
theorem Shadows.exec (h : F.Shadows G w' w) {t : Tag'} {q : Stmt ⊕ Look} {inp : Inp}
    {k : Except ε (FrontAns Ans LAns q) → Prog (Stmt ⊕ Look) (FrontAns Ans LAns) ε β}
    {r : Except ε (FrontAns Ans LAns q)} {s'₁ : Store Db Write Res Aux (Stmt ⊕ Look) Inp Tag'}
    (hsess : w'.sess i = some (t, .call q k))
    (hx : Isolation.exec F.system.toEngine i t q inp w'.store = some (r, s'₁)) :
    F.Shadows G ⟨s'₁, upd w'.sess i (some (t, k r)), w'.next⟩ w
      ∨ ∃ w₁, S.step w (.exec i inp) = some w₁
          ∧ F.Shadows G ⟨s'₁, upd w'.sess i (some (t, k r)), w'.next⟩ w₁ := by
  obtain ⟨⟨e, he, hr, hscript, -⟩, hothers⟩ := exec_trail hx
  have hgrown : w'.store.script i <+: s'₁.script i := ⟨_, hscript.symm⟩
  -- a statement of the system
  have hinside : ∀ (q₀ : Stmt) (k₀ : Except ε (Ans q₀) → Prog Stmt Ans ε α)
      {pre : List (Obs Db Aux (Stmt ⊕ Look) Inp Tag')}, pre <+: w'.store.script i → G.admits t pre →
      w.sess i = some (F.target t, .call q₀ k₀) → q = .inl q₀ →
      HEq k (fun r => ((k₀ r).behind F.wrap : Prog (Stmt ⊕ Look) (FrontAns Ans LAns) ε β)) →
      ∃ w₁, S.step w (.exec i inp) = some w₁
        ∧ F.Shadows G ⟨s'₁, upd w'.sess i (some (t, k r)), w'.next⟩ w₁ := by
    intro q₀ k₀ pre hpre hadm hbase hq hk
    subst hq
    rw [eq_of_heq hk]
    obtain ⟨s₁, hx₁, hs₁⟩ := h.store.exec_inl hx
    refine ⟨⟨s₁, upd w.sess i (some (F.target t, k₀ r)), w.next⟩, ?_, ?_⟩
    · rw [System.step, hbase]
      simp only [hx₁]
    · exact h.update hsess hs₁ (.inside t (k₀ r) (hpre.trans hgrown) hadm)
        (fun j hj => (hothers j hj).1)
        (fun j hj hi => fresh_exec hi hj hx₁)
  rcases h.session hsess with ⟨p, pre, hp, hbase, hpre, hadm⟩ | ⟨hbase, hfresh, honce, happ⟩
  · obtain ⟨q₀, k₀, rfl, hq, hk⟩ := Prog.behind_eq_call hp.symm
    exact .inr (hinside q₀ k₀ hpre hadm hbase hq hk)
  · generalize hos : w'.store.script i = os at happ hscript
    generalize hp : Prog.call q k = p at happ
    cases happ with
    | enter admitted =>
        obtain ⟨q₀, k₀, hstart, hq, hk⟩ := Prog.behind_eq_call hp.symm
        rw [hstart] at hbase
        exact .inr (hinside q₀ k₀ ⟨[], by rw [hos, List.append_nil]⟩ admitted hbase hq hk)
    | ret b => exact absurd hp (by simp)
    | raise e => exact absurd hp (by simp)
    | call q k calm rest =>
        injection hp with hq hk
        subst hq
        obtain rfl := eq_of_heq hk
        have hidle : w'.store.pending i = [] := (congrFun h.store.pending i).trans hfresh.pending
        rw [hidle] at he
        have hs₁ := h.store.exec_calm hfresh.toIdle hx (fun e he => by
          rw [Store.view, hidle] at he
          exact calm _ _ _ e he)
        have hstand : F.Stands G (s'₁.script i) w.store i (some (t, k r)) (w.sess i) := by
          rw [hbase, hr, hscript]
          exact .before t _ hfresh honce (rest _ _ _ _ e he)
        have hw : (⟨w.store, upd w.sess i (w.sess i), w.next⟩ :
            World Db Write Res Aux Stmt Inp ε Tag α Ans) = w := by
          have hupd : upd w.sess i (w.sess i) = w.sess := by
            funext j
            by_cases hj : j = i
            · rw [hj, upd_self]
            · exact upd_ne _ _ hj
          rw [hupd]
        have hsh := h.update hsess hs₁ hstand (fun j hj => (hothers j hj).1) (fun j _ hj => hj)
        rw [hw] at hsh
        exact .inl hsh

/-- **Every move of the front is a move of the system, or none.** -/
theorem shadows_step (hF : F.Faithful G) (hsigned : Signed w') (h : F.Shadows G w' w)
    {a : Action Tag' Inp Env} (hs : F.system.step w' a = some w'₁) :
    F.Shadows G w'₁ w ∨ ∃ w₁, S.step w (F.move a) = some w₁ ∧ F.Shadows G w'₁ w₁ := by
  rcases step_cases hs with ⟨t, rfl, rfl⟩ | ⟨i, inp, t, q, k, r, s'₁, rfl, hsess, hx, rfl⟩
    | ⟨i, inp, t, b, p', rfl, hsess, hag, rfl⟩ | ⟨i, x, rfl, hsess, rfl⟩ | ⟨x, o, rfl, he, rfl⟩
  · -- a session is opened in both, before its gate here unless it loops
    refine .inr ⟨_, rfl, h.store, by rw [h.next], fun j => ?_, fun j hj => ?_⟩
    · rw [h.next]
      by_cases hj : j = w.next
      · subst hj
        simp only [upd_self]
        have hnil : w'.store.script w.next = [] := hsigned.script_nil (Nat.le_of_eq h.next)
        show F.Stands G (w'.store.script w.next) _ _ _ _
        rw [hnil]
        cases hag : S.again (F.target t) with
        | none => exact .before t _ (h.unborn _ (Nat.le_refl _)).2 hag (hF.approach _ t)
        | some p =>
            obtain ⟨hstart, hadm⟩ := hF.loops t p hag
            have hstart : F.system.start t = (S.start (F.target t)).behind F.wrap := hstart
            rw [hstart]
            exact .inside t _ List.prefix_rfl hadm
      · simp only [upd_ne _ _ hj]
        exact h.sess j
    · have hne : j ≠ w.next := Nat.ne_of_gt hj
      exact ⟨(upd_ne _ _ hne).trans (h.unborn j (Nat.le_of_lt hj)).1,
        (h.unborn j (Nat.le_of_lt hj)).2⟩
  · exact h.exec hsess hx
  · -- only a session that is past its gate goes another round
    obtain ⟨p₀, hag₀, rfl⟩ := Option.map_eq_some_iff.mp hag
    rcases h.session hsess with ⟨p, pre, hp, hbase, hpre, hadm⟩ | ⟨-, -, honce, -⟩
    · obtain ⟨a, rfl, -⟩ := Prog.behind_eq_ret hp.symm
      refine .inr ⟨⟨w.store, upd w.sess i (some (F.target t, p₀)), w.next⟩, ?_, ?_⟩
      · show S.step w (.exec i inp) = _
        rw [System.step, hbase]
        simp only [hag₀]
      · exact h.update hsess h.store (.inside t p₀ hpre hadm) (fun _ _ => rfl) (fun j _ hj => hj)
    · rw [honce] at hag₀
      exact absurd hag₀ (by simp)
  · obtain ⟨t, p'⟩ := x
    obtain ⟨y, hbase⟩ : ∃ y, w.sess i = some y := by
      rcases h.session hsess with ⟨p, -, -, hbase, -⟩ | ⟨hbase, -⟩
      · exact ⟨_, hbase⟩
      · exact ⟨_, hbase⟩
    refine .inr ⟨⟨w.store.drop S.toEngine i, upd w.sess i none, w.next⟩, ?_, ?_⟩
    · show S.step w (.crash i) = _
      rw [System.step, hbase]
    · refine h.update hsess ⟨h.store.db, ?_, ?_, ?_, h.store.commits, h.store.trace⟩ .gone
        (fun _ _ => rfl) (fun j _ hj => fresh_drop hj i)
      · simp only [Store.drop, h.store.aux]
        rfl
      · simp only [Store.drop, h.store.pending]
      · simp only [Store.drop, h.store.locks]
  · have he' : S.env x w.store.aux = some o := by
      rw [← h.store.aux]
      exact he
    refine .inr ⟨⟨{ w.store with aux := o }, w.sess, w.next⟩, ?_, ?_, h.next, fun j =>
      ?_, fun j hj => ?_⟩
    · show S.step w (.env x) = _
      rw [System.step, he']
    · exact ⟨h.store.db, rfl, h.store.pending, h.store.locks, h.store.commits, h.store.trace⟩
    · exact (h.sess j).congr (fun hi => ⟨⟨hi.pending, hi.locks⟩, hi.trace, hi.commits⟩)
    · have hi := (h.unborn j hj).2
      exact ⟨(h.unborn j hj).1, ⟨hi.pending, hi.locks⟩, hi.trace, hi.commits⟩

omit [DecidableEq Res] in
/-- Both have been through the same committed states. -/
theorem SameStore.past (h : F.SameStore s' s) (db₀ : Db) (n : Nat) :
    s'.past F.system.toEngine db₀ n = s.past S.toEngine db₀ n := by
  have hwrites : (s.commits.take n).flatMap Commit.writes = (s'.commits.take n).flatMap
      Commit.writes := by
    rw [← h.commits, ← List.map_take, List.flatMap_map]
    rfl
  unfold Store.past
  rw [hwrites]
  rfl

/-! ## Runs -/

omit [DecidableEq Res] in
theorem shadows_init (db : Db) (aux : Aux) :
    F.Shadows G (World.init (Store.init db aux)) (World.init (Store.init db aux)) where
  store := ⟨rfl, rfl, rfl, rfl, rfl, .slnil⟩
  next := rfl
  sess := fun _ => .gone
  unborn := fun i _ => ⟨rfl, .init i db aux⟩

/-- **Every run of the front is a run of the system**, with the same committed states, the same
locks and the same outside. -/
theorem reachable_shadowed (hF : F.Faithful G) {db : Db} {aux : Aux}
    (h : Reachable F.system (Store.init db aux) w') :
    ∃ w, Reachable S (Store.init db aux) w ∧ F.Shadows G w' w := by
  induction h with
  | init => exact ⟨_, .init, shadows_init db aux⟩
  | tail hr' hs ih =>
      obtain ⟨w, hr, hw⟩ := ih
      rcases shadows_step hF hr'.signed hw hs with hw₁ | ⟨w₁, hs₁, hw₁⟩
      · exact ⟨w, hr, hw₁⟩
      · exact ⟨w₁, hr.tail hs₁, hw₁⟩

end Front

end Isolation
