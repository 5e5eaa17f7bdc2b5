import WalletLedger.Isolation.Prog

/-!
# A transactional store with row locks

The store of a READ COMMITTED database. Each session buffers its writes; a
statement reads the committed state with the session's own buffer on top, and a
commit applies the buffer to whatever is committed *then*. Nothing but locks
stands between a stale read and the commit that uses it.

Locks are taken on *resources*: a row, or a value of a unique index. A statement
that needs a resource another session holds cannot run yet. Locks are held until
the session commits or rolls back.

The engine says, for every resource, when two committed states agree on it
(`same`), and which resources a write may disturb (`footprint`). From that one
frame law comes the fact the whole development rests on, `exec_frame`: as long
as sessions only write what they have locked, the resources a session holds stay
as it saw them.

`trace` and `commits` are history: every statement that ran with the state it
met, and every write set in commit order. No statement reads them.
-/

namespace Isolation

/-- Session identifiers, handed out in order. -/
abbrev Sid := Nat

/-- What becomes of the transaction after a statement. -/
inductive Ctl where
  /-- The transaction stays open. -/
  | stay
  /-- The buffered writes are applied and the locks released. -/
  | commit
  /-- The buffered writes are dropped and the locks released. -/
  | abort
  deriving DecidableEq, Repr

/-- What a statement does: the locks it takes, the writes it buffers, its outcome. -/
structure Effect (Write Res Aux ε β : Type) where
  /-- Resources to lock; the statement waits while another session holds one. -/
  locks : List Res := []
  /-- Writes appended to the session's buffer. -/
  writes : List Write := []
  /-- Whether the transaction goes on. -/
  ctl : Ctl := .stay
  /-- The answer, or the exception raised. -/
  ans : Except ε β
  /-- The state outside the database afterwards. -/
  aux : Aux

/-- The engine under a system: what writes mean, what locks protect, what statements do. -/
structure Engine (Db Write Res Aux Stmt Inp Env ε : Type) (Ans : Stmt → Type) where
  /-- Apply one write. -/
  apply : Db → Write → Db
  /-- The resources a write may disturb. -/
  footprint : Write → List Res
  /-- Agreement of two states on a resource. -/
  same : Res → Db → Db → Prop
  same_refl : ∀ r db, same r db db
  same_trans : ∀ {r db₁ db₂ db₃}, same r db₁ db₂ → same r db₂ db₃ → same r db₁ db₃
  /-- A write leaves everything outside its footprint alone. -/
  same_apply : ∀ {r db w}, r ∉ footprint w → same r db (apply db w)
  /-- One statement, given the environment's choices, the session and what it sees. -/
  run : (q : Stmt) → Inp → Sid → Db → Aux → Option (Effect Write Res Aux ε (Ans q))
  /-- A statement takes the locks of everything it writes. -/
  covers : ∀ {q inp i db aux e}, run q inp i db aux = some e →
    ∀ w ∈ e.writes, ∀ r ∈ footprint w, r ∈ e.locks
  /-- A move of the world outside the sessions. -/
  env : Env → Aux → Option Aux
  /-- What the outside world notices of a session that dies. -/
  crash : Sid → Aux → Aux

/-- One executed statement and the state it met. -/
structure Obs (Db Aux Stmt Inp Tag : Type) where
  /-- The session. -/
  sid : Sid
  /-- What the session is running. -/
  tag : Tag
  /-- The statement. -/
  stmt : Stmt
  /-- The environment's choices. -/
  inp : Inp
  /-- The committed state before it. -/
  db : Db
  /-- The outside state before it. -/
  aux : Aux
  /-- Whether it was answered rather than raising. -/
  ok : Bool
  /-- How many write sets had been committed before it. -/
  clock : Nat

/-- A committed write set with its author. -/
structure Commit (Write Tag : Type) where
  /-- The session. -/
  sid : Sid
  /-- What the session is running. -/
  tag : Tag
  /-- The writes, in order. -/
  writes : List Write

/-- The shared state of a system of sessions. -/
structure Store (Db Write Res Aux Stmt Inp Tag : Type) where
  /-- The committed state. -/
  db : Db
  /-- State outside the database. -/
  aux : Aux
  /-- Uncommitted writes of each session. -/
  pending : Sid → List Write
  /-- Held locks. -/
  locks : List (Res × Sid)
  /-- History: the statements executed so far. -/
  trace : List (Obs Db Aux Stmt Inp Tag)
  /-- History: the write sets committed so far. -/
  commits : List (Commit Write Tag)

/-- Point update of a function on sessions. -/
def upd {β : Type} (f : Sid → β) (i : Sid) (b : β) : Sid → β := fun j => if j = i then b else f j

@[simp] theorem upd_self {β : Type} (f : Sid → β) (i : Sid) (b : β) : upd f i b i = b := by
  simp [upd]

theorem upd_ne {β : Type} (f : Sid → β) {i j : Sid} (b : β) (h : j ≠ i) : upd f i b j = f j := by
  simp [upd, h]

section

variable {Db Write Res Aux Stmt Inp Env ε Tag : Type} {Ans : Stmt → Type}

/-- Apply a write set in order. -/
def Engine.applyAll (E : Engine Db Write Res Aux Stmt Inp Env ε Ans) (db : Db)
    (ws : List Write) : Db := ws.foldl E.apply db

@[simp] theorem Engine.applyAll_nil (E : Engine Db Write Res Aux Stmt Inp Env ε Ans) (db : Db) :
    E.applyAll db [] = db := rfl

theorem Engine.applyAll_append (E : Engine Db Write Res Aux Stmt Inp Env ε Ans) (db : Db)
    (ws ws' : List Write) : E.applyAll db (ws ++ ws') = E.applyAll (E.applyAll db ws) ws' := by
  simp [Engine.applyAll, List.foldl_append]

namespace Store

/-- Nothing running, nothing written. -/
def init (db : Db) (aux : Aux) : Store Db Write Res Aux Stmt Inp Tag :=
  { db := db, aux := aux, pending := fun _ => [], locks := [], trace := [], commits := [] }

/-- What session `i` reads: the committed state under its own uncommitted writes. -/
def view (E : Engine Db Write Res Aux Stmt Inp Env ε Ans)
    (s : Store Db Write Res Aux Stmt Inp Tag) (i : Sid) : Db := E.applyAll s.db (s.pending i)

/-- Some session other than `i` holds one of these resources. -/
def blocked [DecidableEq Res] (s : Store Db Write Res Aux Stmt Inp Tag) (i : Sid)
    (rs : List Res) : Bool :=
  s.locks.any (fun l => decide (l.1 ∈ rs) && decide (l.2 ≠ i))

/-- Drop the locks of `i`. -/
def release (locks : List (Res × Sid)) (i : Sid) : List (Res × Sid) :=
  locks.filter (fun l => decide (l.2 ≠ i))

/-- The committed write sets once `i` has committed `ws`; an empty one leaves no record. -/
def record (cs : List (Commit Write Tag)) (i : Sid) (t : Tag) (ws : List Write) :
    List (Commit Write Tag) :=
  if ws.isEmpty then cs else cs ++ [⟨i, t, ws⟩]

/-- Carry out an effect for session `i`. -/
def settle {β : Type} (E : Engine Db Write Res Aux Stmt Inp Env ε Ans)
    (s : Store Db Write Res Aux Stmt Inp Tag) (i : Sid) (t : Tag)
    (e : Effect Write Res Aux ε β) : Store Db Write Res Aux Stmt Inp Tag :=
  match e.ctl with
  | .stay =>
      { s with
        aux := e.aux
        pending := upd s.pending i (s.pending i ++ e.writes)
        locks := s.locks ++ e.locks.map (fun r => (r, i)) }
  | .commit =>
      { s with
        db := E.applyAll s.db (s.pending i)
        aux := e.aux
        pending := upd s.pending i []
        locks := release s.locks i
        commits := record s.commits i t (s.pending i) }
  | .abort =>
      { s with
        aux := e.aux
        pending := upd s.pending i []
        locks := release s.locks i }

/-- Session `i` is gone: its connection drops, and with it everything uncommitted. -/
def drop (E : Engine Db Write Res Aux Stmt Inp Env ε Ans)
    (s : Store Db Write Res Aux Stmt Inp Tag) (i : Sid) : Store Db Write Res Aux Stmt Inp Tag :=
  { s with
    aux := E.crash i s.aux
    pending := upd s.pending i []
    locks := release s.locks i }

/-- Note a statement in the history. -/
def observe (s : Store Db Write Res Aux Stmt Inp Tag) (i : Sid) (t : Tag) (q : Stmt) (inp : Inp)
    (ok : Bool) : Store Db Write Res Aux Stmt Inp Tag :=
  { s with trace := s.trace ++ [⟨i, t, q, inp, s.db, s.aux, ok, s.commits.length⟩] }

end Store

/-- Execute one statement of session `i`. `none` while it has to wait, or when the
environment's choices do not fit the statement. -/
def exec [DecidableEq Res] (E : Engine Db Write Res Aux Stmt Inp Env ε Ans) (i : Sid)
    (t : Tag) (q : Stmt)
    (inp : Inp) (s : Store Db Write Res Aux Stmt Inp Tag) :
    Option (Except ε (Ans q) × Store Db Write Res Aux Stmt Inp Tag) :=
  match E.run q inp i (s.view E i) s.aux with
  | none => none
  | some e =>
      if s.blocked i e.locks then none
      else some (e.ans, (s.observe i t q inp e.ans.isOk).settle E i t e)

/-! ## Invariants of the store -/

/-- No resource is held by two sessions. -/
def Exclusive (s : Store Db Write Res Aux Stmt Inp Tag) : Prop :=
  ∀ r i j, (r, i) ∈ s.locks → (r, j) ∈ s.locks → i = j

/-- Session `i` holds every resource its uncommitted writes may disturb. -/
def Covered (E : Engine Db Write Res Aux Stmt Inp Env ε Ans) (i : Sid)
    (s : Store Db Write Res Aux Stmt Inp Tag) : Prop :=
  ∀ w ∈ s.pending i, ∀ r ∈ E.footprint w, (r, i) ∈ s.locks

/-- Session `i` has no open transaction. -/
structure Idle (i : Sid) (s : Store Db Write Res Aux Stmt Inp Tag) : Prop where
  /-- Nothing is uncommitted. -/
  pending : s.pending i = []
  /-- Nothing is locked. -/
  locks : ∀ r, (r, i) ∉ s.locks

/-- Session `i` has not done anything yet. -/
structure Fresh (i : Sid) (s : Store Db Write Res Aux Stmt Inp Tag) : Prop extends Idle i s where
  /-- No statement of it has run. -/
  trace : ∀ o ∈ s.trace, o.sid ≠ i
  /-- Nothing of it is committed. -/
  commits : ∀ c ∈ s.commits, c.sid ≠ i

theorem Fresh.init (i : Sid) (db : Db) (aux : Aux) :
    Fresh i (Store.init db aux : Store Db Write Res Aux Stmt Inp Tag) :=
  ⟨⟨rfl, by simp [Store.init]⟩, by simp [Store.init], by simp [Store.init]⟩

/-- What the other sessions cannot change under session `i`. -/
structure Frame (E : Engine Db Write Res Aux Stmt Inp Env ε Ans) (i : Sid)
    (s s' : Store Db Write Res Aux Stmt Inp Tag) : Prop where
  /-- Its uncommitted writes. -/
  pending : s'.pending i = s.pending i
  /-- The locks it holds. -/
  locks : ∀ r, (r, i) ∈ s'.locks ↔ (r, i) ∈ s.locks
  /-- Whatever those locks protect. -/
  held : ∀ r, (r, i) ∈ s.locks → E.same r s.db s'.db
  /-- Its part of the history. -/
  trace : ∃ l, s'.trace = s.trace ++ l ∧ ∀ o ∈ l, o.sid ≠ i
  /-- Its commits; the committed state has moved by those of the others. -/
  commits : ∃ l, s'.commits = s.commits ++ l ∧ s'.db = E.applyAll s.db (l.flatMap Commit.writes)
    ∧ ∀ c ∈ l, c.sid ≠ i
  /-- None of those has written anything it holds. -/
  apart : ∃ l, s'.commits = s.commits ++ l
    ∧ ∀ c ∈ l, ∀ w ∈ c.writes, ∀ r ∈ E.footprint w, (r, i) ∉ s.locks

section frame

variable {E : Engine Db Write Res Aux Stmt Inp Env ε Ans} {i j : Sid} {t : Tag}
  {s s' s'' : Store Db Write Res Aux Stmt Inp Tag}

theorem Frame.refl : Frame E i s s where
  pending := rfl
  locks := fun _ => Iff.rfl
  held := fun r _ => E.same_refl r s.db
  trace := ⟨[], by simp, by simp⟩
  commits := ⟨[], by simp, by simp, by simp⟩
  apart := ⟨[], by simp, by simp⟩

theorem Frame.trans (h₁ : Frame E i s s') (h₂ : Frame E i s' s'') : Frame E i s s'' where
  pending := h₂.pending.trans h₁.pending
  locks := fun r => (h₂.locks r).trans (h₁.locks r)
  held := fun r hr => E.same_trans (h₁.held r hr) (h₂.held r ((h₁.locks r).mpr hr))
  trace := by
    obtain ⟨l₁, e₁, n₁⟩ := h₁.trace
    obtain ⟨l₂, e₂, n₂⟩ := h₂.trace
    refine ⟨l₁ ++ l₂, by rw [e₂, e₁, List.append_assoc], ?_⟩
    intro o ho
    rcases List.mem_append.mp ho with ho | ho
    · exact n₁ o ho
    · exact n₂ o ho
  commits := by
    obtain ⟨l₁, e₁, d₁, n₁⟩ := h₁.commits
    obtain ⟨l₂, e₂, d₂, n₂⟩ := h₂.commits
    refine ⟨l₁ ++ l₂, by rw [e₂, e₁, List.append_assoc], ?_, ?_⟩
    · rw [d₂, d₁, List.flatMap_append, Engine.applyAll_append]
    intro c hc
    rcases List.mem_append.mp hc with hc | hc
    · exact n₁ c hc
    · exact n₂ c hc
  apart := by
    obtain ⟨l₁, e₁, n₁⟩ := h₁.apart
    obtain ⟨l₂, e₂, n₂⟩ := h₂.apart
    refine ⟨l₁ ++ l₂, by rw [e₂, e₁, List.append_assoc], ?_⟩
    intro c hc w hw r hr
    rcases List.mem_append.mp hc with hc | hc
    · exact n₁ c hc w hw r hr
    · rw [← h₁.locks]
      exact n₂ c hc w hw r hr

theorem Idle.frame (h : Idle i s) (hf : Frame E i s s') : Idle i s' where
  pending := hf.pending.trans h.pending
  locks := fun r hr => h.locks r ((hf.locks r).mp hr)

theorem Fresh.frame (h : Fresh i s) (hf : Frame E i s s') : Fresh i s' where
  toIdle := h.toIdle.frame hf
  trace := by
    obtain ⟨l, he, hn⟩ := hf.trace
    intro o ho
    rw [he] at ho
    rcases List.mem_append.mp ho with ho | ho
    · exact h.trace o ho
    · exact hn o ho
  commits := by
    obtain ⟨l, he, -, hn⟩ := hf.commits
    intro c hc
    rw [he] at hc
    rcases List.mem_append.mp hc with hc | hc
    · exact h.commits c hc
    · exact hn c hc

theorem Covered.frame (h : Covered E i s) (hf : Frame E i s s') : Covered E i s' := by
  intro w hw r hr
  rw [hf.pending] at hw
  exact (hf.locks r).mpr (h w hw r hr)

theorem Idle.covered (h : Idle i s) : Covered E i s := by
  intro w hw
  rw [h.pending] at hw
  simp at hw

theorem mem_release {locks : List (Res × Sid)} {r : Res} {i j : Sid} :
    (r, j) ∈ Store.release locks i ↔ (r, j) ∈ locks ∧ j ≠ i := by
  simp [Store.release]

/-- Recording a commit of `i` adds its writes and nothing of anyone else. -/
theorem record_eq (cs : List (Commit Write Tag)) (i : Sid) (t : Tag) (ws : List Write) :
    ∃ l, Store.record cs i t ws = cs ++ l ∧ l.flatMap Commit.writes = ws
      ∧ ∀ c ∈ l, c = ⟨i, t, ws⟩ := by
  unfold Store.record
  by_cases h : ws.isEmpty
  · exact ⟨[], by simp [h], by simp_all, by simp⟩
  · exact ⟨[⟨i, t, ws⟩], by simp [h], by simp, by simp⟩

/-- Writes outside a resource leave it alone, however many there are. -/
theorem same_applyAll {r : Res} {ws : List Write} {db : Db}
    (h : ∀ w ∈ ws, r ∉ E.footprint w) : E.same r db (E.applyAll db ws) := by
  induction ws generalizing db with
  | nil => exact E.same_refl r db
  | cons w ws ih =>
      exact E.same_trans (E.same_apply (h w (by simp))) (ih (fun v hv => h v (by simp [hv])))

/-- A session that dies disturbs nobody. -/
theorem drop_frame (hij : i ≠ j) : Frame E i s (s.drop E j) where
  pending := upd_ne _ _ hij
  locks := by
    intro r
    rw [Store.drop, mem_release]
    exact ⟨fun h => h.1, fun h => ⟨h, hij⟩⟩
  held := fun r _ => E.same_refl r s.db
  trace := ⟨[], by simp [Store.drop], by simp⟩
  commits := ⟨[], by simp [Store.drop], by simp [Store.drop], by simp⟩
  apart := ⟨[], by simp [Store.drop], by simp⟩

theorem drop_exclusive (hx : Exclusive s) : Exclusive (s.drop E j) := by
  intro r i i' h h'
  exact hx r i i' (mem_release.mp h).1 (mem_release.mp h').1

theorem drop_idle : Idle j (s.drop E j) where
  pending := upd_self _ _ _
  locks := fun _ hr => (mem_release.mp hr).2 rfl

end frame

/-! ## What one statement does -/

section step

variable [DecidableEq Res]
variable {E : Engine Db Write Res Aux Stmt Inp Env ε Ans} {i j : Sid} {t : Tag} {q : Stmt}
  {inp : Inp} {r : Except ε (Ans q)} {s s' : Store Db Write Res Aux Stmt Inp Tag}

/-- **Everything a statement can do**: it was not blocked, and its effect was carried out. -/
theorem exec_cases (h : exec E i t q inp s = some (r, s')) :
    ∃ e, E.run q inp i (s.view E i) s.aux = some e ∧ s.blocked i e.locks = false
      ∧ r = e.ans ∧ s' = (s.observe i t q inp e.ans.isOk).settle E i t e := by
  unfold exec at h
  split at h
  · exact absurd h (by simp)
  · rename_i e he
    split at h
    · exact absurd h (by simp)
    · rename_i hb
      injection h with h
      injection h with h₁ h₂
      exact ⟨e, he, by simpa using hb, h₁.symm, h₂.symm⟩

/-- A statement can be executed if every lock is the session's own. -/
theorem exec_own {e : Effect Write Res Aux ε (Ans q)} (h : ∀ l ∈ s.locks, l.2 = i)
    (he : E.run q inp i (s.view E i) s.aux = some e) :
    exec E i t q inp s = some (e.ans, (s.observe i t q inp e.ans.isOk).settle E i t e) := by
  have hfree : s.blocked i e.locks = false := by
    unfold Store.blocked
    rw [List.any_eq_false]
    intro l hl
    simp [h l hl]
  unfold exec
  rw [he]
  simp only [hfree]
  rfl

/-- The history gains the statement and the state it met. -/
theorem exec_trace (h : exec E i t q inp s = some (r, s')) :
    s'.trace = s.trace ++ [⟨i, t, q, inp, s.db, s.aux, r.isOk, s.commits.length⟩] := by
  obtain ⟨e, -, -, rfl, rfl⟩ := exec_cases h
  unfold Store.settle
  split <;> rfl

/-- The three ways a statement leaves the store, as the session sees it. -/
inductive Outcome {β : Type} (E : Engine Db Write Res Aux Stmt Inp Env ε Ans) (i : Sid) (t : Tag)
    (s s' : Store Db Write Res Aux Stmt Inp Tag) (e : Effect Write Res Aux ε β) : Prop where
  /-- The transaction goes on. -/
  | stay (ctl : e.ctl = .stay) (db : s'.db = s.db) (commits : s'.commits = s.commits)
      (pending : s'.pending i = s.pending i ++ e.writes)
      (locks : ∀ r, (r, i) ∈ s'.locks ↔ (r, i) ∈ s.locks ∨ r ∈ e.locks)
  /-- The transaction is committed. -/
  | commit (ctl : e.ctl = .commit) (db : s'.db = E.applyAll s.db (s.pending i))
      (commits : s'.commits = Store.record s.commits i t (s.pending i)) (idle : Idle i s')
  /-- The transaction is gone. -/
  | abort (ctl : e.ctl = .abort) (db : s'.db = s.db) (commits : s'.commits = s.commits)
      (idle : Idle i s')

/-- **What a statement does to the session's own transaction.** -/
theorem exec_outcome (h : exec E i t q inp s = some (r, s')) :
    ∃ e, E.run q inp i (s.view E i) s.aux = some e ∧ r = e.ans ∧ s'.aux = e.aux
      ∧ Outcome E i t s s' e := by
  obtain ⟨e, he, -, rfl, rfl⟩ := exec_cases h
  refine ⟨e, he, rfl, ?_, ?_⟩
  · unfold Store.settle; split <;> rfl
  unfold Store.settle
  split
  · rename_i hc
    refine .stay hc rfl rfl (by simp [Store.observe]) (fun r => ?_)
    simp [Store.observe]
  · rename_i hc
    exact .commit hc rfl rfl ⟨by simp, fun r hr => (mem_release.mp hr).2 rfl⟩
  · rename_i hc
    exact .abort hc rfl rfl ⟨by simp, fun r hr => (mem_release.mp hr).2 rfl⟩

theorem not_blocked {rs : List Res} (h : s.blocked i rs = false) {r : Res} (hr : r ∈ rs)
    {j : Sid} (hj : (r, j) ∈ s.locks) : j = i := by
  unfold Store.blocked at h
  rw [List.any_eq_false] at h
  have := h (r, j) hj
  simpa [hr] using this

/-- **Locked resources are out of reach.** A statement of `j` leaves everything that
another session `i` depends on as it was. -/
theorem exec_frame (hx : Exclusive s) (hc : Covered E j s) (hij : i ≠ j)
    (h : exec E j t q inp s = some (r, s')) : Frame E i s s' := by
  obtain ⟨e, -, -, -, rfl⟩ := exec_cases h
  have htr : ∃ l, s.trace ++ [⟨j, t, q, inp, s.db, s.aux, e.ans.isOk,
    s.commits.length⟩] = s.trace ++ l
      ∧ ∀ o ∈ l, o.sid ≠ i :=
    ⟨_, rfl, by simpa using fun he => hij he.symm⟩
  have hrel : ∀ r, (r, i) ∈ Store.release s.locks j ↔ (r, i) ∈ s.locks := by
    intro r; rw [mem_release]; exact ⟨fun h => h.1, fun h => ⟨h, hij⟩⟩
  unfold Store.settle
  split
  · refine ⟨upd_ne _ _ hij, ?_, fun r _ => E.same_refl r s.db, htr, ⟨[], by simp [Store.observe]⟩,
      ⟨[], by simp [Store.observe]⟩⟩
    intro r
    simp only [Store.observe, List.mem_append, List.mem_map, Prod.mk.injEq]
    constructor
    · rintro (h | ⟨_, _, _, h⟩)
      · exact h
      · exact absurd h.symm hij
    · exact Or.inl
  · obtain ⟨l, hl, hw, hn⟩ := record_eq (s.commits) j t (s.pending j)
    refine ⟨upd_ne _ _ hij, hrel, ?_, htr, ?_, l, hl, ?_⟩
    · -- the commit: `j` holds all it writes, so it writes nothing that `i` holds
      intro r hr
      refine same_applyAll (fun w hw hrw => ?_)
      exact hij (hx r i j hr (hc w hw r hrw))
    · refine ⟨l, hl, by rw [hw]; rfl, fun c hc he => ?_⟩
      rw [hn c hc] at he
      exact hij he.symm
    · intro c hmem w hwm r hr hheld
      rw [hn c hmem] at hwm
      exact hij (hx r i j hheld (hc w hwm r hr))
  · exact ⟨upd_ne _ _ hij, hrel, fun r _ => E.same_refl r s.db, htr, ⟨[], by simp [Store.observe]⟩,
      ⟨[], by simp [Store.observe]⟩⟩

/-- A session keeps the locks of its uncommitted writes until they are gone. -/
theorem exec_covered (hc : Covered E i s) (h : exec E i t q inp s = some (r, s')) :
    Covered E i s' := by
  obtain ⟨e, he, -, -, rfl⟩ := exec_cases h
  unfold Store.settle
  split
  · intro w hw r hr
    simp only [upd_self, List.mem_append] at hw
    refine List.mem_append.mpr ?_
    rcases hw with hw | hw
    · exact .inl (hc w hw r hr)
    · exact .inr (List.mem_map.mpr ⟨r, E.covers he w hw r hr, rfl⟩)
  · intro w hw; simp at hw
  · intro w hw; simp at hw

/-- Locks stay exclusive. -/
theorem exec_exclusive (hx : Exclusive s) (h : exec E j t q inp s = some (r, s')) :
    Exclusive s' := by
  obtain ⟨e, -, hb, -, rfl⟩ := exec_cases h
  have hrel : ∀ r i i', (r, i) ∈ Store.release s.locks j → (r, i') ∈ Store.release s.locks j →
      i = i' := by
    intro r i i' h h'
    exact hx r i i' (mem_release.mp h).1 (mem_release.mp h').1
  unfold Store.settle
  split
  · -- a newly taken lock was free, or already held by `j`
    intro r i i' h h'
    simp only [Store.observe, List.mem_append, List.mem_map, Prod.mk.injEq] at h h'
    rcases h with h | ⟨a, ha, rfl, rfl⟩ <;> rcases h' with h' | ⟨b, hb', hbr, rfl⟩
    · exact hx r i i' h h'
    · subst hbr; exact not_blocked hb hb' h
    · exact (not_blocked hb ha h').symm
    · rfl
  · exact hrel
  · exact hrel

end step

end

end Isolation
