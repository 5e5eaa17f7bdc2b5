import WalletLedger.Proof.Effects
import WalletLedger.Proof.Inbox
import WalletLedger.Proof.Trails

/-!
# The rollup counts every event once

Handlers run concurrently, each in its own session. The primary key of the inbox
makes sure that no event is filed twice, and a row of the rollup that is not there
yet cannot be made twice either. But a row that is there is read without a lock and
then written with the sums computed from what was read: whatever another handler
commits in between is overwritten. And a handler that finds the event filed only
when it files it itself meets the primary key at the flush, outside the `try`, and
raises.

Both come down to one thing: the row a handler writes is not as its last statement,
the read, found it. Where it always is, the rollup is what the filed events make it.
-/

namespace WalletLedger

open Isolation Prog AnalyticsService

/-! ## Rows that change between a read and a write -/

/-- The row of the rollup a statement rewrites. -/
def Stmt.revises : Stmt → Option (String × String)
  | .updateStat currency type _ _ => some (currency, type)
  | _ => none

/-- The row that `o` files or rewrites is as `d` met it. -/
def AsRead (d o : LedgerObs) : Prop :=
  o.stmt.files.bind o.db.processedEvents.get = o.stmt.files.bind d.db.processedEvents.get
    ∧ o.stmt.revises.bind o.db.transactionStats.get = o.stmt.revises.bind d.db.transactionStats.get

/-- The look-ups of a handler. -/
def Stmt.looksUp : Stmt → Bool
  | .selectProcessed _ _ | .selectStat _ _ => true
  | _ => false

/-- The last statement of session `i`. -/
def lastOf (i : Sid) (os : List LedgerObs) : Option LedgerObs :=
  (os.filter (fun o => decide (o.sid = i))).getLast?

/-- Every statement that follows a look-up finds the row it writes as the look-up met it. -/
def Steady (os : List LedgerObs) : Prop :=
  ∀ k o, os[k]? = some o → ∀ d, lastOf o.sid (os.take k) = some d → d.stmt.looksUp = true →
    AsRead d o

instance (d o : LedgerObs) : Decidable (AsRead d o) :=
  inferInstanceAs (Decidable (_ = _ ∧ _ = _))

instance (os : List LedgerObs) : Decidable (Steady os) :=
  decidable_of_iff (∀ x ∈ os.zipIdx, ∀ d ∈ (lastOf x.1.sid (os.take x.2)).toList,
      d.stmt.looksUp = true → AsRead d x.1) (by
    constructor
    · intro h k o ho d hd
      exact h (o, k) (List.mem_zipIdx_iff_getElem?.mpr ho) d (Option.mem_toList.mpr hd)
    · intro h x hx d hd
      exact h x.2 x.1 (List.mem_zipIdx_iff_getElem?.mp hx) d (Option.mem_toList.mp hd))

section steady

variable {i : Sid} {os l : List LedgerObs} {o : LedgerObs}

theorem lastOf_others (h : ∀ o ∈ l, o.sid ≠ i) : lastOf i (os ++ l) = lastOf i os := by
  have hnil : l.filter (fun o => decide (o.sid = i)) = [] := by
    rw [List.filter_eq_nil_iff]
    intro o ho
    simpa using h o ho
  unfold lastOf
  rw [List.filter_append, hnil, List.append_nil]

theorem lastOf_own (h : o.sid = i) : lastOf i (os ++ [o]) = some o := by
  unfold lastOf
  rw [List.filter_append, List.filter_cons_of_pos (by simpa using h), List.filter_nil]
  exact List.getLast?_concat

theorem Steady.before (h : Steady (os ++ l)) : Steady os := by
  intro k o ho d hd
  have hk : k ≤ os.length := Nat.le_of_lt (List.getElem?_eq_some_iff.mp ho).1
  refine h k o (getElem?_of_append l ho) d ?_
  rw [List.take_append_of_le_length hk]
  exact hd

theorem Steady.last (h : Steady (os ++ [o])) {d : LedgerObs} (hd : lastOf o.sid os = some d)
    (hl : d.stmt.looksUp = true) : AsRead d o := by
  refine h os.length o (by simp) d ?_ hl
  rw [List.take_left]
  exact hd

/-- In the statements of a session, the last one before is the one before. -/
theorem Steady.next (h : Steady os) {d : LedgerObs} {pre post : List LedgerObs}
    (hs : os.filter (fun o => decide (o.sid = i)) = pre ++ d :: o :: post)
    (hl : d.stmt.looksUp = true) : AsRead d o := by
  have hsplit : pre ++ d :: o :: post = (pre ++ [d]) ++ o :: post := by simp
  rw [hsplit, List.filter_eq_append_iff] at hs
  obtain ⟨m₁, m₂, rfl, h₁, h₂⟩ := hs
  obtain ⟨l₁, l₂, rfl, hn, hp, -⟩ := List.filter_eq_cons_iff.mp h₂
  have hsid : o.sid = i := by simpa using hp
  refine h (m₁ ++ l₁).length o ?_ d ?_ hl
  · rw [← List.append_assoc]
    simp
  · rw [← List.append_assoc, List.take_left, hsid, lastOf_others]
    · unfold lastOf
      rw [h₁]
      exact List.getLast?_concat
    · intro x hx
      simpa using hn x hx

end steady

/-! ## Where events come from -/

/-- A poll that fetched an event. -/
def Polls (o : LedgerObs) (e : Payload) : Prop :=
  o.stmt = .poll ∧ ∃ p, o.inp.fetch = .next p
    ∧ (o.aux.partitions p)[o.aux.position p]? = some (.event e)

/-- Session `i` handles an event: it was started for it, or has fetched it. -/
def Handles (i : Sid) (t : Request) (e : Payload) (os : List LedgerObs) : Prop :=
  t = .handleEvent e ∨ (t = .analyticsConsumer ∧ ∃ o ∈ os, o.sid = i ∧ Polls o e)

/-- An event was filed by a session that handled it. -/
def Given (s : LedgerStore) (e : Payload) : Prop :=
  ∃ c ∈ s.commits, .insertProcessed ⟨consumerName, e.transactionId⟩ ∈ c.writes
    ∧ Handles c.sid c.tag e s.trace

theorem Handles.mono {i : Sid} {t : Request} {e : Payload} {os : List LedgerObs}
    (h : Handles i t e os) (l : List LedgerObs) : Handles i t e (os ++ l) := by
  rcases h with h | ⟨ht, o, ho, hs, hp⟩
  · exact .inl h
  · exact .inr ⟨ht, o, List.mem_append_left _ ho, hs, hp⟩

theorem Given.mono {s s' : LedgerStore} {e : Payload} (h : Given s e)
    {cs : List (Commit Write Request)} {l : List LedgerObs} (hcs : s'.commits = s.commits ++ cs)
    (hl : s'.trace = s.trace ++ l) : Given s' e := by
  obtain ⟨c, hc, hw, hh⟩ := h
  exact ⟨c, by rw [hcs]; exact List.mem_append_left _ hc, hw, by rw [hl]; exact hh.mono l⟩

/-! ## The contract of the handlers -/

/-- The statements a handler executes with its event filed and not yet committed. -/
def Stmt.afterFiling : Stmt → Bool
  | .selectStat _ _ | .insertStat _ _ _ _ | .updateStat _ _ _ _ | .commit => true
  | _ => false

/-- The invariant of the handlers. -/
structure Tallied (s : LedgerStore) : Prop where
  /-- As long as no handler was disturbed, the rollup is what the filed events make it. -/
  rollup : Steady s.trace → ∃ events, Rollup s.db events ∧ ∀ e ∈ events, Given s e
  /-- A handler that has filed its event is the only one. -/
  alone : ∀ o ∈ s.trace, ∀ e, o.tag = .handleEvent e → o.stmt.afterFiling = true →
    ¬InInbox o.db e.transactionId

/-- The contract of the handlers: what their locks do not protect, they cannot rely on. -/
def tally : Contract Db Write Res Outside Stmt Inp Exn Request Reply where
  rely _ _ _ := True
  inv := Tallied
  post i t r s := t = .analyticsConsumer → r.isOk = true → s.pending i = []

theorem tally_preorder : tally.Preorder where
  refl := fun _ _ => trivial
  trans := fun _ _ => trivial

section statements

variable {i : Sid} {t : Request} {q : Stmt} {inp : Inp} {s s' : LedgerStore} {r : Except Exn q.Ans}

/-- What a step has to show: the rollup after it, and that it did not meet its own event filed. -/
theorem Tallied.step (hi : Tallied s) {l : List LedgerObs} (hl : s'.trace = s.trace ++ l)
    (hnew : Steady s'.trace → ∀ events, Rollup s.db events → (∀ e ∈ events, Given s e) →
      ∃ events, Rollup s'.db events ∧ ∀ e ∈ events, Given s' e)
    (halone : ∀ o ∈ l, ∀ e, o.tag = .handleEvent e → o.stmt.afterFiling = true →
      ¬InInbox o.db e.transactionId) : Tallied s' where
  rollup := by
    intro hst
    have hst₀ : Steady s.trace := by
      rw [hl] at hst
      exact hst.before
    obtain ⟨events, hr, hg⟩ := hi.rollup hst₀
    exact hnew hst events hr hg
  alone := by
    intro o ho
    rw [hl, List.mem_append] at ho
    rcases ho with ho | ho
    · exact hi.alone o ho
    · exact halone o ho

/-- The rollup stays if its tables do. -/
theorem Tallied.same (hi : Tallied s) {l : List LedgerObs}
    (hcs : ∃ cs, s'.commits = s.commits ++ cs) (hl : s'.trace = s.trace ++ l)
    (hp : s'.db.processedEvents = s.db.processedEvents)
    (hs : s'.db.transactionStats = s.db.transactionStats)
    (halone : ∀ o ∈ l, ∀ e, o.tag = .handleEvent e → o.stmt.afterFiling = true →
      ¬InInbox o.db e.transactionId) : Tallied s' := by
  obtain ⟨cs, hcs⟩ := hcs
  refine hi.step hl (fun _ events hr hg => ?_) halone
  exact ⟨events, hr.same hp hs, fun e he => (hg e he).mono hcs hl⟩

/-- Anything but a commit keeps the contract. -/
theorem guar_uncommitted (hi : Tallied s) (hx : exec engine i t q inp s = some (r, s'))
    (hq : q ≠ .commit) (halone : ∀ e, t = .handleEvent e → q.afterFiling = true →
      ¬InInbox s.db e.transactionId) : Guar engine tally i s s' := by
  obtain ⟨_, -, -, -, hdb, hcs, -⟩ := exec_quiet hx hq
  refine ⟨fun _ _ => trivial, hi.same ⟨[], ?_⟩ (exec_trace hx) ?_ ?_ ?_⟩
  · rw [hcs, List.append_nil]
  · rw [hdb]
  · rw [hdb]
  · intro o ho
    rw [List.mem_singleton.mp ho]
    exact halone

/-- So does a commit that has nothing to do with the inbox. -/
theorem guar_elsewhere {r : Except Exn Unit} (hi : Tallied s)
    (hx : exec engine i t .commit inp s = some (r, s')) (hw : ∀ w ∈ s.pending i, w.area ≠ .inbox)
    (halone : ∀ e, t = .handleEvent e → ¬InInbox s.db e.transactionId) :
    Guar engine tally i s s' := by
  obtain ⟨-, -, hout⟩ := exec_commit hx
  have hobs : ∀ o ∈ [(⟨i, t, .commit, inp, s.db, s.aux, r.isOk, s.commits.length⟩ : LedgerObs)],
      ∀ e, o.tag = .handleEvent e → o.stmt.afterFiling = true → ¬InInbox o.db e.transactionId := by
    intro o ho e ht _
    rw [List.mem_singleton.mp ho] at ht ⊢
    exact halone e ht
  rcases hout with ⟨x, -, -, hdb, hcs⟩ | ⟨-, -, hdb, hcs⟩
  · refine ⟨fun _ _ => trivial, hi.same ⟨[], ?_⟩ (exec_trace hx) ?_ ?_ hobs⟩
    · rw [hcs, List.append_nil]
    · rw [hdb]
    · rw [hdb]
  · obtain ⟨cs, hcs', -, -⟩ := record_eq s.commits i t (s.pending i)
    obtain ⟨hp, hs⟩ := inbox_applyAll s.db hw
    refine ⟨fun _ _ => trivial, hi.same ⟨cs, hcs.trans hcs'⟩ (exec_trace hx) ?_ ?_ hobs⟩
    · rw [hdb, hp]
    · rw [hdb, hs]

end statements

/-! ## A handler -/

/-- Session `i` is about to handle an event. -/
structure Ready (i : Sid) (t : Request) (e : Payload) (s : LedgerStore) : Prop where
  handles : Handles i t e s.trace
  pending : s.pending i = []

/-- Session `i` has filed an event and buffered `ws` since. -/
structure Filing (i : Sid) (t : Request) (e : Payload) (ws : List Write)
    (s : LedgerStore) : Prop where
  handles : Handles i t e s.trace
  pending : s.pending i = .insertProcessed ⟨consumerName, e.transactionId⟩ :: ws
  lock : (Res.processed (consumerName, e.transactionId), i) ∈ s.locks
  absent : (Res.processed (consumerName, e.transactionId)).Absent s.db

/-- Session `i` has filed an event and read a row of the rollup. -/
def Counting (i : Sid) (t : Request) (e : Payload) (row : Option TransactionStat)
    (s : LedgerStore) :
    Prop :=
  Filing i t e [] s
    ∧ ∃ d, lastOf i s.trace = some d ∧ d.stmt.looksUp = true
      ∧ d.db.transactionStats.get e.aggregate = row

/-- Session `i` has filed and counted an event; undisturbed, it has counted from the row that
is there. -/
def Ticked (i : Sid) (t : Request) (e : Payload) (s : LedgerStore) : Prop :=
  ∃ row, Filing i t e [statWrite e row] s ∧ (Res.stat e.aggregate, i) ∈ s.locks
    ∧ (Steady s.trace → s.db.transactionStats.get e.aggregate = row)

section handler

variable {i : Sid} {t : Request} {q : Stmt} {inp : Inp} {s s' : LedgerStore} {e : Payload}
  {ws : List Write} {row : Option TransactionStat}

theorem absent_iff {db : Db} {id : Uuid} :
    (Res.processed (consumerName, id)).Absent db ↔ ¬InInbox db id :=
  Option.not_isSome_iff_eq_none.symm

theorem Ready.stable : Stable engine tally i (Ready i t e) := by
  intro s s' h hr
  obtain ⟨l, hl, -⟩ := hr.frame.trace
  exact ⟨by rw [hl]; exact h.handles.mono l, hr.frame.pending.trans h.pending⟩

/-- **Nobody else can file an event that is filed and not committed.** -/
theorem Filing.stable : Stable engine tally i (Filing i t e ws) := by
  intro s s' h hr
  obtain ⟨l, hl, -⟩ := hr.frame.trace
  exact ⟨by rw [hl]; exact h.handles.mono l, hr.frame.pending.trans h.pending,
    (hr.frame.locks _).mpr h.lock, h.absent.same (hr.frame.held _ h.lock)⟩

theorem Counting.stable : Stable engine tally i (Counting i t e row) := by
  rintro s s' ⟨h, d, hd, hrow⟩ hr
  obtain ⟨l, hl, hn⟩ := hr.frame.trace
  exact ⟨Filing.stable s s' h hr, d, by rw [hl, lastOf_others hn]; exact hd, hrow⟩

theorem Ticked.stable : Stable engine tally i (Ticked i t e) := by
  rintro s s' ⟨row, h, hlock, hrow⟩ hr
  obtain ⟨l, hl, -⟩ := hr.frame.trace
  refine ⟨row, Filing.stable s s' h hr, (hr.frame.locks _).mpr hlock, fun hst => ?_⟩
  rw [hl] at hst
  exact (hr.frame.held _ hlock).trans (hrow hst.before)

/-- A handler that has filed its event has not met it filed. -/
theorem Filing.alone (h : Filing i t e ws s) {e' : Payload} (ht : t = .handleEvent e') :
    ¬InInbox s.db e'.transactionId := by
  rcases h.handles with ht' | ⟨ht', -⟩
  · rw [ht] at ht'
    injection ht' with he
    rw [he]
    exact absent_iff.mp h.absent
  · rw [ht] at ht'
    exact absurd ht' (by simp)

/-- A statement of a handler; an exception ends the handler. -/
theorem triple_filing {A : LedgerStore → Prop} {P : q.Ans → LedgerStore → Prop}
    (hA : Stable engine tally i A) (hP : ∀ a, Stable engine tally i (P a)) (hq : q ≠ .commit)
    (halone : q.afterFiling = true → ∀ s, A s → ∃ ws, Filing i t e ws s)
    (hok : ∀ s inp a s', A s → exec engine i t q inp s = some (.ok a, s') → P a s') :
    Triple engine tally i t A (query q) (Ends P (fun _ => True)) := by
  refine .perform hA (Ends.stable hP (fun _ _ h _ => h)) ?_
  intro s inp r s' hi ha hx
  refine ⟨guar_uncommitted hi hx hq (fun e' ht hf => ?_), ?_⟩
  · obtain ⟨ws, h⟩ := halone hf s ha
    exact h.alone ht
  · cases r with
    | ok a => exact hok s inp a s' ha hx
    | error x => trivial

/-- A new row of the rollup is counted from nothing, under its lock. -/
theorem Counting.insertStat (h : Counting i t e row s)
    (hx : exec engine i t (.insertStat e.currency e.type (0 + 1) (0 + e.amount)) inp s
      = some (.ok (), s')) : Ticked i t e s' := by
  obtain ⟨hf, -⟩ := h
  obtain ⟨hclash, hdb, -, hpend, hlocks⟩ := exec_writes rfl hx
  refine ⟨none, ⟨?_, ?_, (hlocks _).mpr (.inl hf.lock), by rw [hdb]; exact hf.absent⟩,
    (hlocks _).mpr (.inr (List.mem_singleton.mpr rfl)), fun _ => ?_⟩
  · rw [exec_trace hx]
    exact hf.handles.mono _
  · rw [hpend, hf.pending]
    rfl
  · -- the row is not in the session's view, where the filed event makes no difference
    rw [hf.pending] at hclash
    have hfree : (s.db.transactionStats.get e.aggregate).isSome = false := inserts_free hclash
    rw [hdb]
    exact Option.not_isSome_iff_eq_none.mp (by rw [hfree]; exact Bool.false_ne_true)

/-- A row that is there is counted from what was read, which undisturbed is what is there. -/
theorem Counting.updateStat {stat : TransactionStat} (h : Counting i t e (some stat) s)
    (hx : exec engine i t (.updateStat e.currency e.type (stat.count + 1)
      (stat.totalAmount + e.amount)) inp s = some (.ok (), s')) : Ticked i t e s' := by
  obtain ⟨hf, d, hd, hl, hrow⟩ := h
  obtain ⟨-, hdb, -, hpend, hlocks⟩ := exec_writes rfl hx
  refine ⟨some stat, ⟨?_, ?_, (hlocks _).mpr (.inl hf.lock), by rw [hdb]; exact hf.absent⟩,
    (hlocks _).mpr (.inr (List.mem_singleton.mpr rfl)), fun hst => ?_⟩
  · rw [exec_trace hx]
    exact hf.handles.mono _
  · rw [hpend, hf.pending]
    rfl
  · rw [exec_trace hx] at hst
    have hread := (hst.last hd hl).2
    rw [hdb]
    exact hread.trans hrow

/-- **The commit of a handler** adds its event to those the rollup is made of. -/
theorem triple_tick : Triple engine tally i t (Ticked i t e) (query .commit) (fun _ _ => True) := by
  refine .perform Ticked.stable (fun _ _ _ h _ => h) ?_
  rintro s inp r s' hi ⟨row, hf, -, hrow⟩ hx
  refine ⟨⟨fun _ _ => trivial, hi.step (exec_trace hx) (fun hst events hr hg => ?_) ?_⟩, trivial⟩
  · obtain ⟨-, -, ⟨x, -, -, hdb, hcs⟩ | ⟨-, -, hdb, hcs⟩⟩ := exec_commit hx
    · refine ⟨events, by rw [hdb]; exact hr, fun e' he' => ?_⟩
      exact (hg e' he').mono (hcs.trans (List.append_nil _).symm) (exec_trace hx)
    · have hst₀ : Steady s.trace := by
        rw [exec_trace hx] at hst
        exact hst.before
      have hnew : s'.commits = s.commits ++ [⟨i, t, s.pending i⟩] := by
        rw [hcs, Store.record, if_neg (by rw [hf.pending]; simp)]
      refine ⟨events ++ [e], ?_, fun e' he' => ?_⟩
      · rw [hdb, hf.pending, ← hrow hst₀]
        exact hr.file (absent_iff.mp hf.absent)
      · rcases List.mem_append.mp he' with he' | he'
        · exact (hg e' he').mono hnew (exec_trace hx)
        · rw [List.mem_singleton.mp he']
          refine ⟨⟨i, t, s.pending i⟩, by rw [hnew]; simp, ?_, ?_⟩
          · rw [hf.pending]
            exact .head _
          · rw [exec_trace hx]
            exact hf.handles.mono _
  · intro o ho e' ht _
    rw [List.mem_singleton.mp ho] at ht ⊢
    exact hf.alone ht

theorem triple_counted : Triple engine tally i t (Ready i t e) (handleEvent e)
    (fun _ _ => True) := by
  have htrue : Stable engine tally i (fun _ => True) := fun _ _ h _ => h
  refine triple_handleEvent tally_preorder htrue e (Ready i t e) (Filing i t e []) (Counting i t e)
    (Ticked i t e) Ready.stable ?_ ?_ ?_ ?_ (fun stat => ?_) triple_tick ?_
  · refine (triple_filing (q := .selectProcessed consumerName e.transactionId) (e := e)
      (P := fun _ => Ready i t e) Ready.stable (fun _ => Ready.stable) (by simp)
      (by simp [Stmt.afterFiling]) (fun s inp row s' h hx => ?_)).conseq (fun _ _ h => h)
      (fun r s h => ?_)
    · obtain ⟨-, -, -, hpend, -⟩ := exec_reads (g := fun db =>
        db.processedEvents.get (consumerName, e.transactionId)) (fun _ _ => rfl) hx
      exact ⟨by rw [exec_trace hx]; exact h.handles.mono _, hpend.trans h.pending⟩
    · cases r with
      | error x => trivial
      | ok row =>
          cases row with
          | none => exact h
          | some x => trivial
  · refine triple_filing (e := e) Ready.stable (fun _ => Filing.stable) (by simp)
      (by simp [Stmt.afterFiling]) (fun s inp a s' h hx => ?_)
    obtain ⟨hclash, hdb, -, hpend, hlocks⟩ := exec_writes rfl hx
    refine ⟨by rw [exec_trace hx]; exact h.handles.mono _, ?_,
      (hlocks _).mpr (.inr (List.mem_singleton.mpr rfl)), ?_⟩
    · rw [hpend, h.pending]
      rfl
    · -- the INSERT has waited for whoever else had filed the event
      rw [h.pending] at hclash
      rw [hdb]
      have hfree : (s.db.processedEvents.get (consumerName, e.transactionId)).isSome = false :=
        inserts_free hclash
      exact absent_iff.mpr (fun hin => Bool.false_ne_true (hfree.symm.trans hin))
  · refine triple_filing (e := e) Filing.stable (fun _ => Counting.stable) (by simp)
      (fun _ s h => ⟨[], h⟩) (fun s inp row s' h hx => ?_)
    obtain ⟨hrow, hdb, -, hpend, hlocks⟩ := exec_reads (g := fun db =>
      db.transactionStats.get (e.currency, e.type)) (fun _ _ => rfl) hx
    rw [h.pending] at hrow
    refine ⟨⟨by rw [exec_trace hx]; exact h.handles.mono _, hpend.trans h.pending,
      (hlocks _).mpr h.lock, by rw [hdb]; exact h.absent⟩,
      ⟨i, t, .selectStat e.currency e.type, inp, s.db, s.aux, true, s.commits.length⟩,
        ?_, rfl, hrow.symm⟩
    rw [exec_trace hx]
    exact lastOf_own rfl
  · exact triple_filing (e := e) Counting.stable (fun _ => Ticked.stable) (by simp)
      (fun _ s h => ⟨[], h.1⟩) (fun s inp a s' h hx => h.insertStat hx)
  · exact triple_filing (e := e) Counting.stable (fun _ => Ticked.stable) (by simp)
      (fun _ s h => ⟨[], h.1⟩) (fun s inp a s' h hx => h.updateStat hx)
  · refine .perform htrue (fun _ => htrue) (fun s inp r s' hi _ hx => ⟨?_, trivial⟩)
    exact guar_uncommitted hi hx (by simp) (by simp [Stmt.afterFiling])

end handler

/-! ## The other programs -/

section programs

variable {i : Sid} {t : Request} {β : Type} {e : Payload}

/-- Session `i` has buffered nothing for the inbox. -/
def Elsewhere (i : Sid) (s : LedgerStore) : Prop := ∀ w ∈ s.pending i, w.area ≠ .inbox

theorem Elsewhere.stable : Stable engine tally i (Elsewhere i) := by
  intro s s' h hr
  unfold Elsewhere
  rw [hr.frame.pending]
  exact h

/-- **Whoever stays out of the inbox keeps the contract.** -/
theorem triple_elsewhere {p : Tx β} (ht : ∀ e, t ≠ .handleEvent e)
    (hp : p.Uses (fun q => q.area ≠ .inbox)) :
    Triple engine tally i t (Elsewhere i) p (fun _ => Elsewhere i) := by
  refine .uses hp Elsewhere.stable ?_
  intro q hq s inp r s' hi he hx
  by_cases hc : q = .commit
  · subst hc
    refine ⟨guar_elsewhere hi hx he (fun e h => absurd h (ht e)), ?_⟩
    unfold Elsewhere
    rw [(exec_commit hx).2.1]
    simp
  · refine ⟨guar_uncommitted hi hx hc (fun e h => absurd h (ht e)), ?_⟩
    obtain ⟨eff, hrun, -, -, -, -, hpend⟩ := exec_quiet hx hc
    unfold Elsewhere
    rcases hpend with hpend | hpend
    · rw [hpend]
      intro w hw
      rcases List.mem_append.mp hw with hw | hw
      · exact he w hw
      · rcases (run_within hrun).writes with h₀ | ⟨w', h₁, hwr, -⟩
        · rw [h₀] at hw
          exact absurd hw (by simp)
        · rw [h₁, List.mem_singleton] at hw
          subst hw
          rw [Stmt.write_area hwr]
          exact hq
    · rw [hpend]
      simp

theorem emptied_stable : Stable engine tally i (fun s => s.pending i = []) :=
  fun _ _ h hr => hr.frame.pending.trans h

/-- A statement that neither writes nor commits, where nothing is buffered. -/
theorem triple_idle {q : Stmt} {P : q.Ans → LedgerStore → Prop} (hq : q ≠ .commit)
    (hf : q.afterFiling = false) (hw : ∀ inp o, q.write inp o = none)
    (hP : ∀ a, Stable engine tally i (P a))
    (hok : ∀ s inp a s', exec engine i t q inp s = some (.ok a, s') → s'.pending i = [] → P a s') :
    Triple engine tally i t (fun s => s.pending i = []) (query q) (Ends P (fun _ => True)) := by
  refine .perform emptied_stable (Ends.stable hP (fun _ _ h _ => h)) ?_
  intro s inp r s' hi hp hx
  refine ⟨guar_uncommitted hi hx hq (fun _ _ h => absurd (hf.symm.trans h) Bool.false_ne_true), ?_⟩
  cases r with
  | error x => trivial
  | ok a =>
      have hsub := pending_subset hx hq hw
      rw [hp] at hsub
      exact hok s inp a s' hx (List.subset_nil.mp hsub)

/-- Closing the session drops what is buffered. -/
theorem triple_closed {A : LedgerStore → Prop} (hA : Stable engine tally i A) :
    Triple engine tally i t A (query .close)
      (Ends (fun _ s => s.pending i = []) (fun _ => True)) := by
  refine .perform hA (Ends.stable (fun _ => emptied_stable) (fun _ _ h _ => h)) ?_
  intro s inp r s' hi _ hx
  refine ⟨guar_uncommitted hi hx (by simp) (by simp [Stmt.afterFiling]), ?_⟩
  cases r with
  | ok u => exact exec_close hx
  | error x => trivial

/-- What cannot be read is never committed. -/
theorem triple_unread {A : LedgerStore → Prop} (txnId : Option Uuid) :
    Triple engine tally i t A (handleForeign txnId) (fun _ _ => True) := by
  have hu : (handleForeign txnId).Uses (fun q => q ≠ .commit ∧ q.afterFiling = false) := by
    cases txnId with
    | none => trivial
    | some txnId =>
        refine .bind (.bind (.perform (by simp [Stmt.afterFiling]))
          (fun _ => trivial)) (fun b => ?_)
        cases b with
        | true => trivial
        | false => exact .bind (.perform (by simp [Stmt.afterFiling])) (fun _ => trivial)
  refine (Triple.uses hu (A := fun _ => True) (fun _ _ h _ => h) ?_).conseq (fun _ _ _ => trivial)
    (fun _ _ h => h)
  intro q hq s inp r s' hi _ hx
  exact ⟨guar_uncommitted hi hx hq.1
    (fun _ _ h => absurd (hq.2.symm.trans h) Bool.false_ne_true), trivial⟩

/-- What a consumer knows after a poll. -/
def PolledBy (i : Sid) : Polled → LedgerStore → Prop
  | .record _ _ (.event e), s => Ready i .analyticsConsumer e s
  | _, s => s.pending i = []

theorem triple_consumerRound :
    Triple engine tally i .analyticsConsumer (fun s => s.pending i = [])
      (AnalyticsConsumer.guarded AnalyticsConsumer.round)
      (Ends (fun _ s => s.pending i = []) (fun _ => True)) := by
  have htrue : Stable engine tally i (fun _ => True) := fun _ _ h _ => h
  refine triple_guardedRound tally_preorder emptied_stable (PolledBy i) (fun _ _ _ _ => True)
    (fun _ _ _ s => s.pending i = []) ?_ (fun _ h => h) (fun _ _ h => h)
    (fun _ _ e => triple_counted) (fun _ _ txnId => triple_unread txnId)
    (fun _ _ _ => triple_closed htrue) (fun p n v => ?_) ?_
  · refine triple_idle (by simp) rfl (fun _ _ => rfl) (fun msg => ?_) (fun s inp msg s' hx hp => ?_)
    · cases msg with
      | nothing => exact emptied_stable
      | error c => exact emptied_stable
      | record p n value =>
          cases value with
          | malformed => exact emptied_stable
          | foreign txnId => exact emptied_stable
          | event e => exact Ready.stable
    · obtain ⟨eff, he, hr, -, -⟩ := exec_quiet hx (by simp)
      rcases runPoll_cases he with ⟨-, hans | ⟨c, hans⟩⟩ | ⟨p, v, hfetch, -, hv, hans, -⟩
      · cases hr.trans hans
        exact hp
      · cases hr.trans hans
        exact hp
      · cases hr.trans hans
        cases v with
        | malformed => exact hp
        | foreign txnId => exact hp
        | event e =>
            refine ⟨.inr ⟨rfl, ⟨i, .analyticsConsumer, .poll, inp, s.db, s.aux, true,
              s.commits.length⟩, ?_, rfl, rfl, p, ?_, hv⟩, hp⟩
            · rw [exec_trace hx]
              exact List.mem_append_right _ (List.mem_singleton.mpr rfl)
            · exact hfetch
  · exact triple_idle (by simp) rfl (fun _ _ => rfl) (fun _ => emptied_stable)
      (fun _ _ _ _ _ hp => hp)
  · refine .perform htrue (fun _ => htrue) (fun s inp r s' hi _ hx => ⟨?_, trivial⟩)
    exact guar_uncommitted hi hx (by simp) (by simp [Stmt.afterFiling])

/-- The consumer's process. -/
theorem triple_consumer {p : Tx Unit} {A : LedgerStore → Prop}
    (hp : Triple engine tally i .analyticsConsumer A p
      (Ends (fun _ s => s.pending i = []) (fun _ => True))) :
    Triple engine tally i .analyticsConsumer A ((fun _ => Reply.polled) <$> p)
      (tally.post i .analyticsConsumer) := by
  refine .map (hp.conseq (fun _ _ h => h) (fun r s h => ?_))
  intro _ hok
  cases r with
  | ok u => exact h
  | error x => exact absurd hok Bool.false_ne_true

end programs

/-! ## Every run -/

variable [Runtime]

omit [Runtime] in
/-- Only handlers and consumers have to do with the inbox. -/
theorem Request.areas_elsewhere {t : Request} (h : t ≠ .analyticsConsumer)
    (h' : ∀ e, t ≠ .handleEvent e) {a : Area} (ha : a ∈ t.areas) : a ≠ .inbox := by
  cases t with
  | analyticsConsumer => exact absurd rfl h
  | handleEvent e => exact absurd rfl (h' e)
  | _ => cases a <;> simp_all [Request.areas]

theorem triple_tally {i : Sid} {t : Request} :
    Triple engine tally i t (fun s => Fresh i s) t.program (tally.post i t) := by
  have htrue : Stable engine tally i (fun _ => True) := fun _ _ h _ => h
  have hother : t ≠ .analyticsConsumer → (∀ e, t ≠ .handleEvent e) →
      Triple engine tally i t (fun s => Fresh i s) t.program (tally.post i t) := by
    intro hc he
    have hp := Uses.mono t.program_keeps (fun _ hq => Request.areas_elsewhere hc he hq)
    refine (triple_elsewhere he hp).conseq (fun s _ h => ?_) (fun _ _ _ h => absurd h hc)
    unfold Elsewhere
    rw [h.pending]
    simp
  cases t with
  | analyticsConsumer =>
      refine triple_consumer (triple_onward tally_preorder htrue ?_ (fun _ => triple_consumerRound))
      exact (triple_idle (by simp) rfl (fun _ _ => rfl) (fun _ => emptied_stable)
        (fun _ _ _ _ _ hp => hp)).conseq (fun _ _ h => h.pending) (fun _ _ h => h)
  | handleEvent e =>
      refine .handle tally_preorder (Q := fun _ _ => True)
        (.map ((triple_counted (t := .handleEvent e)).conseq (fun s _ h => ⟨.inl rfl, h.pending⟩)
          (fun _ _ h => h))) (fun r => ?_)
      refine .bind tally_preorder (triple_closed htrue) (fun _ => ?_) (fun x => ?_)
      · cases r with
        | ok b => exact .ret emptied_stable (fun _ _ _ h => absurd h (by simp))
        | error x => exact .raise emptied_stable (fun _ _ _ h => absurd h (by simp))
      · exact .raise htrue (fun _ _ _ h => absurd h (by simp))
  | _ => exact hother (by simp) (by simp)

omit [Runtime] in
/-- Nothing has been filed or counted. -/
theorem rollup_empty : Rollup .empty [] where
  distinct := List.nodup_nil
  inbox := rfl
  stats := fun _ => rfl

theorem tally_sound : Sound system tally (LedgerStore.start .empty) where
  pre := tally_preorder
  init := by
    refine ⟨⟨fun _ => ⟨[], rollup_empty, by simp⟩, ?_⟩, fun i => .init i Db.empty Outside.init⟩
    · intro o ho; exact absurd ho (by simp [LedgerStore.start, Store.init])
  start := fun i t s hi hf => triple_tally s hi hf
  again := by
    intro i t p a s hp hi ha
    have hp : t.next = some p := hp
    cases t with
    | analyticsConsumer =>
        cases hp
        exact triple_consumer triple_consumerRound s hi (ha rfl rfl)
    | _ => exact absurd hp (by simp [Request.next])
  crash := by
    intro i s hi
    refine ⟨fun _ _ => trivial, hi.same ⟨[], ?_⟩ (l := []) ?_ rfl rfl (by simp)⟩
    · simp [Store.drop]
    · simp [Store.drop]
  env := by
    intro x o s hi _
    exact ⟨fun _ => trivial, hi.same ⟨[], by simp⟩ (l := []) (by simp) rfl rfl (by simp)⟩

/-! ## Handlers that meet their event filed -/

section trails

omit [Runtime]

variable {i : Sid} {t : Request} {e : Payload} {os : List LedgerObs} {ws ws' : List Write}

/-- The look-up is answered from the inbox it meets. -/
theorem isProcessed_ended {r : Except Exn Bool}
    (h : Trail engine i t (ProcessedEventRepository.isProcessed consumerName e.transactionId) []
      os (ofExcept r) ws) (hf : ∀ o ∈ os, o.inp.fault = none) :
    ∃ d : LedgerObs, os = [d] ∧ d.stmt.looksUp = true
      ∧ r = .ok (decide (InInbox d.db e.transactionId)) := by
  have hread : ∀ {r os ws}, Trail engine i t
    (query (.selectProcessed consumerName e.transactionId)) []
      os (ofExcept r) ws → (∀ o ∈ os, o.inp.fault = none) → ∃ d : LedgerObs, os = [d]
        ∧ d.stmt.looksUp = true
          ∧ r = .ok (d.db.processedEvents.get (consumerName, e.transactionId)) := by
    intro r os ws h hf
    obtain ⟨d, rfl, hq, ⟨f, hfault, -⟩ | ⟨-, hr, -⟩⟩ := read_ended
      (a := fun db => db.processedEvents.get (consumerName, e.transactionId)) (fun _ _ _ _ => rfl) h
    · exact absurd (hfault.symm.trans (hf d (.head _))) (by simp)
    · exact ⟨d, rfl, by rw [hq]; rfl, hr⟩
  rcases h.bind_ended with ⟨x, h, -⟩ | ⟨row, os₁, os₂, ws₁, rfl, h₁, h₂⟩
  · obtain ⟨d, -, -, hr⟩ := hread h hf
    exact absurd hr (by simp)
  · obtain ⟨d, rfl, hq, hr⟩ := hread h₁ (fun o ho => hf o (List.mem_append_left _ ho))
    obtain ⟨rfl, hret, -⟩ := h₂.ret_inv
    refine ⟨d, rfl, hq, ?_⟩
    have hr' : r = .ok row.isSome := ofExcept_inj hret
    rw [hr', Except.ok.inj hr]
    exact congrArg Except.ok Bool.decide_eq_true.symm

/-- Without a failure, a commit that is watched for conflicts goes through. -/
theorem commit_ended {β : Type} {f : Except Exn Unit → Tx β} {r : Except Exn β}
    (h : Trail engine i t ((query .commit).attempt >>= f) ws os (ofExcept r) ws')
    (hf : ∀ o ∈ os, o.inp.fault = none) :
    ∃ (o : LedgerObs) (os' : List LedgerObs), os = o :: os' ∧ o.stmt = .commit
      ∧ Trail engine i t (f (.ok ())) [] os' (ofExcept r) ws' := by
  rw [attempt_bind] at h
  obtain ⟨rc, os₁, os₂, ws₁, rfl, h₁, h₂⟩ := h.handle_ended
  obtain ⟨inp, db, aux, n, eff, rfl, hrun, rfl, rfl⟩ := h₁.perform_ended
  have hfault : inp.fault = none :=
    hf ⟨i, t, .commit, inp, db, aux, eff.ans.isOk, n⟩ (List.mem_append_left _ (.head _))
  have heff : eff = { ctl := .commit, ans := .ok (), aux := aux } := by
    have hrun : run .commit inp i (db.applyAll ws) aux = some eff := hrun
    rw [run, hfault] at hrun
    exact (Option.some.inj hrun).symm
  subst heff
  exact ⟨_, os₂, rfl, rfl, h₂⟩

theorem uses_increment (currency type : String) (amount : Int) :
    (TransactionStatRepository.increment currency type amount).Uses
      (fun q => q.afterFiling = true) := by
  refine .bind (.perform rfl) (fun row => ?_)
  cases row with
  | none => exact .perform rfl
  | some stat => exact .perform rfl

/-- **A handler without failures** finds its event when it looks it up, and returns `false`; or
it goes on to file it. -/
theorem handleEvent_trail {r : Except Exn Bool}
    (h : Trail engine i t (handleEvent e) [] os (ofExcept r) ws)
    (hf : ∀ o ∈ os, o.inp.fault = none) :
    r = .ok false
      ∨ ∃ (d o : LedgerObs) (os' : List LedgerObs), os = d :: o :: os' ∧ d.stmt.looksUp = true
        ∧ ¬InInbox d.db e.transactionId
        ∧ o.stmt = .insertProcessed consumerName e.transactionId
        ∧ ∀ o' ∈ os', o'.stmt.afterFiling = true := by
  rcases h.bind_ended with ⟨x, h₁, -⟩ | ⟨b, os₁, os₂, ws₁, rfl, h₁, h₂⟩
  · obtain ⟨d, -, -, hr⟩ := isProcessed_ended h₁ hf
    exact absurd hr (by simp)
  obtain ⟨d, rfl, hq, hb⟩ := isProcessed_ended h₁ (fun o ho => hf o (List.mem_append_left _ ho))
  by_cases hd : InInbox d.db e.transactionId
  · rw [decide_eq_true hd] at hb
    cases hb
    obtain ⟨-, hr, -⟩ := h₂.ret_inv
    exact .inl (ofExcept_inj hr)
  · rw [decide_eq_false hd] at hb
    cases hb
    right
    rcases h₂.bind_ended with ⟨x, h₂, -⟩ | ⟨u, os₃, os₄, ws₂, rfl, h₂, h₃⟩
    · obtain ⟨inp, db, aux, n, eff, rfl, -⟩ := h₂.perform_ended
      exact ⟨d, _, [], rfl, hq, hd, rfl, by simp⟩
    obtain ⟨inp, db, aux, n, eff, rfl, -⟩ := h₂.perform_ended
    refine ⟨d, _, os₄, rfl, hq, hd, rfl, fun o' ho' => ?_⟩
    rcases h₃.bind_ended with ⟨x, h₃, -⟩ | ⟨u, os₅, os₆, ws₃, rfl, h₃, h₄⟩
    · exact (h₃.uses (uses_increment _ _ _)).1 o' ho'
    · rcases List.mem_append.mp ho' with ho' | ho'
      · exact (h₃.uses (uses_increment _ _ _)).1 o' ho'
      · obtain ⟨c, os', rfl, hc, h₅⟩ := commit_ended h₄ (fun o ho => hf o (by simp [ho]))
        obtain ⟨rfl, -⟩ := h₅.ret_inv
        rw [List.mem_singleton.mp ho', hc]
        rfl

end trails

/-- The event of a handler is filed before one of its statements. -/
def MetFiled (w : LedgerWorld) (i : Sid) (e : Payload) : Prop :=
  ∃ o ∈ w.store.script i, o.stmt ≠ .close ∧ InInbox o.db e.transactionId

/-- **The rollup counts every filed event once, and a handler that comes too late says so**, in
every run in which each row a handler files or rewrites is as its look-up found it. The second
part is about calls none of whose statements fails for reasons of its own. -/
theorem reachable_tallied (w : LedgerWorld) (h : ReachableFrom .empty w)
    (hs : Steady w.store.trace) :
    (∃ events, Rollup w.store.db events ∧ ∀ e ∈ events, Given w.store e)
      ∧ ∀ i e r, ended w i = some (.handleEvent e, r) →
        (∀ o ∈ w.store.script i, o.inp.fault = none) → MetFiled w i e
          → r = .ok (.handled false) := by
  have hinv : Tallied w.store := (tally_sound.reachable h).inv
  refine ⟨hinv.rollup hs, fun i e r hend hf hmet => ?_⟩
  obtain ⟨ws, htrail⟩ := ended_trail h hend rfl
  obtain ⟨os, oc, ws₁, hscript, hclose, hserved⟩ := withSession_ended htrail
  obtain ⟨r', hbody, rfl⟩ := hserved.map_ended
  have hf' : ∀ o ∈ os, o.inp.fault = none := by
    intro o ho
    exact hf o (by rw [hscript]; exact List.mem_append_left _ ho)
  rcases handleEvent_trail hbody hf' with rfl | ⟨d, o, os', rfl, hq, hd, ho, hafter⟩
  · rfl
  · -- nothing but the statement that files the event could have met it, and that one is steady
    exfalso
    obtain ⟨x, hx, hne, hin⟩ := hmet
    have hread : AsRead d o := by
      have hsplit : w.store.script i = [] ++ d :: o :: (os' ++ [oc]) := hscript
      exact hs.next hsplit hq
    rw [hscript, List.mem_append] at hx
    rcases hx with hx | hx
    · rcases List.mem_cons.mp hx with rfl | hx
      · exact hd hin
      · rcases List.mem_cons.mp hx with rfl | hx
        · have hget := hread.1
          rw [ho] at hget
          refine hd ?_
          unfold InInbox at hin ⊢
          rw [show d.db.processedEvents.get _ = x.db.processedEvents.get _ from hget.symm]
          exact hin
        · have hmem : x ∈ w.store.script i := by
            rw [hscript]
            simp [hx]
          obtain ⟨htr, hsid⟩ := mem_script.mp hmem
          have htag : x.tag = .handleEvent e := by
            obtain ⟨p, hp⟩ := ended_sess hend
            exact (h.signed.tags i _ p hp).2 x htr hsid
          exact hinv.alone x htr e htag (hafter x hx) hin
    · rw [List.mem_singleton.mp hx] at hne
      exact hne hclose

/-! ## Runs of handlers -/

/-- The event of a deposit of 100 in INR. -/
def depositEvent (id : Uuid) : Payload := ⟨id, "DEPOSIT", "COMPLETED", "INR", 100, 31, none, 0⟩

/-- One event is counted; then the handlers of two others both read the row before either
writes it. -/
def overwritten : List LedgerAction :=
  [.spawn (.handleEvent (depositEvent 1))] ++ advance 0 6 10
    ++ [.spawn (.handleEvent (depositEvent 2)), .spawn (.handleEvent (depositEvent 3))]
    ++ advance 1 3 20 ++ advance 2 3 30 ++ advance 1 3 40 ++ advance 2 3 50

/-- A handler looks its event up; another one files it; the first one files it. -/
def tooLate : List LedgerAction :=
  [.spawn (.handleEvent (depositEvent 1)), .spawn (.handleEvent (depositEvent 1))]
    ++ advance 0 1 10 ++ advance 1 6 20 ++ advance 0 2 30

/-- The event a handler is started for. -/
def Request.event : Request → Option Payload
  | .handleEvent e => some e
  | _ => none

omit [Runtime] in
/-- Three events are filed and two are counted. -/
theorem overwritten_uncounted : ∃ w, @ReachableFrom plainRuntime .empty w
    ∧ ¬∃ events, Rollup w.store.db events ∧ ∀ e ∈ events, Given w.store e := by
  obtain ⟨w, hr, hw⟩ := exists_runPlain .empty overwritten (fun w =>
    ((w.store.db.transactionStats.get ("INR", "DEPOSIT")).map TransactionStat.count,
      [1, 2, 3].all (fun id => decide (InInbox w.store.db id)),
      w.store.commits.all (fun c => c.tag.event.any
        (fun e => decide (e.aggregate = ("INR", "DEPOSIT"))))))
    (v := (some 2, true, true)) (by decide +kernel)
  refine ⟨w, hr, ?_⟩
  rintro ⟨events, hroll, hgiven⟩
  have hcount := congrArg Prod.fst hw
  have hfiled := congrArg (fun x => x.2.1) hw
  have htags := congrArg (fun x => x.2.2) hw
  -- every event is of this currency and type
  have hall : countedFor ("INR", "DEPOSIT") events = events := by
    unfold countedFor
    rw [List.filter_eq_self]
    intro e he
    obtain ⟨c, hc, -, hh⟩ := hgiven e he
    have htag := List.all_eq_true.mp htags c hc
    rcases hh with ht | ⟨ht, -⟩
    · rw [ht] at htag
      exact htag
    · rw [ht] at htag
      exact absurd htag Bool.false_ne_true
  have hlen : events.length = 2 := by
    dsimp only at hcount
    rw [hroll.stats, summary, hall] at hcount
    cases events with
    | nil => exact absurd hcount (by simp)
    | cons e es =>
        have hcount : Int.ofNat (es.length + 1) = 2 := Option.some.inj hcount
        exact Int.ofNat.inj hcount
  have hids : [1, 2, 3] ⊆ events.map Payload.transactionId :=
    fun id hid => (hroll.recorded id).mp (of_decide_eq_true (List.all_eq_true.mp hfiled id hid))
  have hle := List.Nodup.length_le_of_subset (by decide : [1, 2, 3].Nodup) hids
  rw [List.length_map, hlen] at hle
  exact absurd hle (by decide)

omit [Runtime] in
/-- The first handler raises. -/
theorem tooLate_raises : ∃ w, @ReachableFrom plainRuntime .empty w
    ∧ ended w 0 = some (.handleEvent (depositEvent 1), .error (.db .integrity))
    ∧ (∀ o ∈ w.store.script 0, o.inp.fault = none) ∧ MetFiled w 0 (depositEvent 1) := by
  obtain ⟨w, hr, hw⟩ := exists_runPlain .empty tooLate (fun w =>
    (ended w 0, (w.store.script 0).all (fun o => decide (o.inp.fault = none)),
      (w.store.script 0).any (fun o => decide (o.stmt ≠ .close ∧ InInbox o.db 1))))
    (v := (some (.handleEvent (depositEvent 1), .error (.db .integrity)), true, true))
    (by decide +kernel)
  refine ⟨w, hr, congrArg Prod.fst hw, fun o ho => ?_, ?_⟩
  · exact of_decide_eq_true (List.all_eq_true.mp (congrArg (fun x => x.2.1) hw) o ho)
  · obtain ⟨o, ho, hmet⟩ := List.any_eq_true.mp (congrArg (fun x => x.2.2) hw)
    exact ⟨o, ho, of_decide_eq_true hmet⟩

omit [Runtime] in
/-- Handlers in each other's way lose counts, and raise. -/
theorem handlers_disturbed :
    (¬∀ w, @ReachableFrom plainRuntime .empty w →
      ∃ events, Rollup w.store.db events ∧ ∀ e ∈ events, Given w.store e)
    ∧ ¬∀ w, @ReachableFrom plainRuntime .empty w → ∀ i e r, ended w i = some (.handleEvent e, r) →
        (∀ o ∈ w.store.script i, o.inp.fault = none) → MetFiled w i e
          → r = .ok (.handled false) := by
  constructor
  · intro hall
    obtain ⟨w, hr, hno⟩ := overwritten_uncounted
    exact hno (hall w hr)
  · intro hall
    obtain ⟨w, hr, hend, hf, hmet⟩ := tooLate_raises
    exact absurd (hall w hr 0 _ _ hend hf hmet) (by simp)

/-- An event, the same again, and another one, each when the one before is done. -/
def inTurn : List LedgerAction :=
  [.spawn (.handleEvent (depositEvent 1))] ++ advance 0 6 10
    ++ [.spawn (.handleEvent (depositEvent 1))] ++ advance 1 2 20
    ++ [.spawn (.handleEvent (depositEvent 2))] ++ advance 2 6 30

omit [Runtime] in
theorem inTurn_tallied : ∃ w, (@ReachableFrom plainRuntime .empty w
    ∧ InInbox w.store.db 2 ∧ MetFiled w 1 (depositEvent 1))
    ∧ (∃ events, Rollup w.store.db events ∧ ∀ e ∈ events, Given w.store e)
    ∧ ∀ i e r, ended w i = some (.handleEvent e, r) →
        (∀ o ∈ w.store.script i, o.inp.fault = none) → MetFiled w i e
          → r = .ok (.handled false) := by
  obtain ⟨w, hr, hw⟩ := exists_runPlain .empty inTurn (fun w =>
    (decide (Steady w.store.trace), decide (InInbox w.store.db 2),
      (w.store.script 1).any (fun o => decide (o.stmt ≠ .close ∧ InInbox o.db 1))))
    (v := (true, true, true)) (by decide +kernel)
  obtain ⟨o, ho, hmet⟩ := List.any_eq_true.mp (congrArg (fun x => x.2.2) hw)
  have hs : Steady w.store.trace := of_decide_eq_true (congrArg Prod.fst hw)
  have hin : InInbox w.store.db 2 := of_decide_eq_true (congrArg (fun x => x.2.1) hw)
  exact ⟨w, ⟨hr, hin, o, ho, of_decide_eq_true hmet⟩, @reachable_tallied plainRuntime w hr hs⟩

end WalletLedger
