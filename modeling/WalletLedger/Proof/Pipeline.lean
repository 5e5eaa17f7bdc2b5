import WalletLedger.Proof.Delivery
import WalletLedger.Proof.Offsets
import WalletLedger.Proof.Tally

/-!
# From the ledger to the rollup

Money operations, publishers, the broker and one analytics consumer together. What
the rollup counts is what the ledger records, link by link:

* a filed event was handled by the consumer, which fetched it from the topic;
* what is in the topic was handed to a producer, once or often (`Sent`);
* what was handed to a producer is the payload of an outbox row (`posting`);
* an outbox row agrees with the transaction it announces (`Announced`).

One consumer at a time is never in its own way: nobody else writes the inbox or the
rollup between its look-ups and its commit (`Sole`), so `Steady` holds and every filed
event is counted once. Publishers are not restricted: a batch may be sent by many, or
by one that dies in the middle and is followed by another.
-/

namespace WalletLedger

open Isolation Prog AnalyticsService

variable [Runtime]

/-! ## One consumer -/

/-- A consumer that has not ended. One that has returned polls again. -/
def Consuming (w : LedgerWorld) (i : Sid) : Prop :=
  ∃ p, w.sess i = some (.analyticsConsumer, p) ∧ ∀ x, p ≠ .raise x

/-- No consumer starts while there is one, events are handled by consumers only, and nobody
but the publishers' producers writes to the topic. -/
def OnePipeline (w : LedgerWorld) : LedgerAction → Prop
  | .spawn t => (∀ e, t ≠ .handleEvent e) ∧ (t = .analyticsConsumer → ∀ i, ¬Consuming w i)
  | .env x => ∀ p v, x ≠ .append p v
  | _ => True

/-- What one consumer at a time can rely on. -/
structure Sole (w : LedgerWorld) : Prop where
  one : ∀ i j, Consuming w i → Consuming w j → i = j
  sessions : ∀ i e p, w.sess i ≠ some (.handleEvent e, p)
  commits : ∀ c ∈ w.store.commits, ∀ e, c.tag ≠ .handleEvent e
  /-- The inbox and the rollup are as the consumer's last look-up met them. -/
  kept : ∀ i, Consuming w i → ∀ d, lastOf i w.store.trace = some d → d.stmt.looksUp = true →
    w.store.db.processedEvents = d.db.processedEvents
      ∧ w.store.db.transactionStats = d.db.transactionStats
  steady : Steady w.store.trace

omit [Runtime] in
/-- One more statement is steady if it finds its row as the last look-up did. -/
theorem Steady.snoc {os : List LedgerObs} {o : LedgerObs} (h : Steady os)
    (hnew : ∀ d, lastOf o.sid os = some d → d.stmt.looksUp = true → AsRead d o) :
    Steady (os ++ [o]) := by
  intro k o' ho' d hd
  have hk := (List.getElem?_eq_some_iff.mp ho').1
  rw [List.length_append, List.length_singleton] at hk
  by_cases hlt : k < os.length
  · rw [List.getElem?_append_left hlt] at ho'
    rw [List.take_append_of_le_length (Nat.le_of_lt hlt)] at hd
    exact h k o' ho' d hd
  · have hk' : k = os.length := by omega
    subst hk'
    rw [List.getElem?_append_right (Nat.le_refl _), Nat.sub_self] at ho'
    cases ho'
    rw [List.take_left] at hd
    exact hnew d hd

omit [Runtime] in
/-- A statement outside the inbox writes none of its rows. -/
theorem asRead_outside {d o : LedgerObs} (h : o.stmt.area ≠ .inbox) : AsRead d o := by
  have hnone : o.stmt.files = none ∧ o.stmt.revises = none := by
    cases hq : o.stmt <;> rw [hq] at h <;> first | exact ⟨rfl, rfl⟩ | exact absurd rfl h
  unfold AsRead
  rw [hnone.1, hnone.2]
  exact ⟨rfl, rfl⟩

omit [Runtime] in
theorem lastOf_mem {i : Sid} {os : List LedgerObs} {d : LedgerObs} (h : lastOf i os = some d) :
    d ∈ os ∧ d.sid = i := by
  obtain ⟨hmem, hsid⟩ := List.mem_filter.mp (List.mem_of_getLast? h)
  exact ⟨hmem, of_decide_eq_true hsid⟩

/-- A consumer was there before, or has just been started. -/
theorem step_consuming {w₁ w₂ : LedgerWorld} {a : LedgerAction} (hs : system.step w₁ a = some w₂)
    {i : Sid} (h : Consuming w₂ i) :
    Consuming w₁ i ∨ (i = w₁.next ∧ a = .spawn .analyticsConsumer) := by
  obtain ⟨p, hp, hx⟩ := h
  rcases step_live hs hp with ⟨p', hp', hraise⟩ | hnew
  · refine .inl ⟨p', hp', fun x he => ?_⟩
    subst he
    exact hx x (hraise ⟨x, rfl⟩).symm
  · exact .inr hnew

/-- What a statement does to the tables of a consumer that is not executing it. -/
theorem Sole.others {w : LedgerWorld} (h : Sole w) (hr : ReachableFrom .empty w) {i j : Sid}
    {t : Request} {p : Tx Reply} (hsess : w.sess i = some (t, p)) (hlive : ∀ x, p ≠ .raise x)
    (hj : Consuming w j) (hij : j ≠ i) {q : Stmt} {inp : Inp} {r : Except Exn q.Ans}
    {s' : LedgerStore}
    (hx : exec engine i t q inp w.store = some (r, s')) :
    s'.db.processedEvents = w.store.db.processedEvents
      ∧ s'.db.transactionStats = w.store.db.transactionStats := by
  by_cases hq : q = .commit
  · -- the session is no consumer, so it commits nothing of the inbox
    subst hq
    have ht : t ≠ .analyticsConsumer := by
      rintro rfl
      exact hij (h.one j i hj ⟨p, hsess, hlive⟩)
    have hout : ∀ x ∈ w.store.pending i, x.area ≠ .inbox := fun x hx =>
      Request.areas_elsewhere ht (fun e he => h.sessions i e p (he ▸ hsess))
        ((reachable_areas hr).1 i t p hsess x hx)
    obtain ⟨-, -, ⟨_, -, -, hdb, -⟩ | ⟨-, -, hdb, -⟩⟩ := exec_commit hx
    · rw [hdb]
      exact ⟨rfl, rfl⟩
    · rw [hdb]
      exact inbox_applyAll w.store.db hout
  · obtain ⟨-, -, -, -, hdb, -⟩ := exec_quiet hx hq
    rw [hdb]
    exact ⟨rfl, rfl⟩

/-- **The consumer keeps to itself.** -/
theorem guided_sole {w : LedgerWorld} (h : Guided system OnePipeline (LedgerStore.start .empty) w) :
    Sole w := by
  induction h with
  | init =>
      refine ⟨fun i j hi => ?_, fun i e p hp => ?_, fun c hc => ?_, fun i hi => ?_,
        fun k o ho => ?_⟩
      · exact absurd hi (by simp [Consuming, World.init])
      · exact absurd hp (by simp [World.init])
      · exact absurd hc (by simp [World.init, LedgerStore.start, Store.init])
      · exact absurd hi (by simp [Consuming, World.init])
      · exact absurd ho (by simp [World.init, LedgerStore.start, Store.init])
  | tail hg hrule hs ih =>
      rename_i w₁ w₂ a
      have hr := hg.reachable
      have hone : ∀ i j, Consuming w₂ i → Consuming w₂ j → i = j := by
        intro i j hi hj
        rcases step_consuming hs hi with hi | ⟨rfl, rfl⟩
        · rcases step_consuming hs hj with hj | ⟨rfl, rfl⟩
          · exact ih.one i j hi hj
          · exact absurd hi (hrule.2 rfl i)
        · rcases step_consuming hs hj with hj | ⟨rfl, -⟩
          · exact absurd hj (hrule.2 rfl j)
          · rfl
      have hsessions : ∀ i e p, w₂.sess i ≠ some (.handleEvent e, p) := by
        intro i e p hp
        rcases step_live hs hp with ⟨p', hp', -⟩ | ⟨-, rfl⟩
        · exact ih.sessions i e p' hp'
        · exact hrule.1 e rfl
      have hcommits : ∀ c ∈ w₂.store.commits, ∀ e, c.tag ≠ .handleEvent e := by
        obtain ⟨cs, -, hcs, -, -, -, hlive, -⟩ := step_history hs
        intro c hc e he
        rw [hcs, List.mem_append] at hc
        rcases hc with hc | hc
        · exact ih.commits c hc e he
        · obtain ⟨p, hp⟩ := hlive c hc
          exact ih.sessions c.sid e p (he ▸ hp)
      -- a move that executes nothing leaves the rest as it was
      have hidle : w₂.store.db = w₁.store.db → w₂.store.trace = w₁.store.trace → Sole w₂ := by
        intro hdb htr
        refine ⟨hone, hsessions, hcommits, fun i hi d hd hl => ?_, by rw [htr]; exact ih.steady⟩
        rw [htr] at hd
        rw [hdb]
        rcases step_consuming hs hi with hi | ⟨rfl, -⟩
        · exact ih.kept i hi d hd hl
        · -- a new session has executed nothing yet
          obtain ⟨hmem, hsid⟩ := lastOf_mem hd
          exact absurd hsid (Nat.ne_of_lt (hr.signed.trace d hmem))
      rcases step_cases hs with ⟨t, -, rfl⟩ | ⟨i, inp, t, q, k, r, s', rfl, hsess, hx, rfl⟩
        | ⟨i, inp, t, x, p, -, -, -, rfl⟩ | ⟨i, x, -, -, rfl⟩ | ⟨x, o, -, -, rfl⟩
      · exact hidle rfl rfl
      · have hcall : t = .analyticsConsumer → Consuming w₁ i := by
          rintro rfl
          exact ⟨_, hsess, by simp⟩
        refine ⟨hone, hsessions, hcommits, fun j hj d hd hl => ?_, ?_⟩
        · show s'.db.processedEvents = _ ∧ s'.db.transactionStats = _
          have hd : lastOf j s'.trace = some d := hd
          rw [exec_trace hx] at hd
          have hj : Consuming w₁ j := by
            rcases step_consuming hs hj with hj | ⟨-, he⟩
            · exact hj
            · exact absurd he (by simp)
          by_cases hji : j = i
          · subst hji
            rw [lastOf_own (o := ⟨j, t, q, inp, w₁.store.db, w₁.store.aux, r.isOk,
              w₁.store.commits.length⟩) rfl] at hd
            cases hd
            have hq : q ≠ .commit := by
              rintro rfl
              exact absurd hl (by simp [Stmt.looksUp])
            obtain ⟨-, -, -, -, hdb, -⟩ := exec_quiet hx hq
            rw [hdb]
            exact ⟨rfl, rfl⟩
          · rw [lastOf_others (by simpa using fun he => hji he.symm)] at hd
            obtain ⟨hp, hst⟩ := ih.others hr hsess (by simp) hj hji hx
            rw [hp, hst]
            exact ih.kept j hj d hd hl
        · show Steady s'.trace
          rw [exec_trace hx]
          refine ih.steady.snoc (fun d hd hl => ?_)
          by_cases ht : t = .analyticsConsumer
          · obtain ⟨hp, hst⟩ := ih.kept i (hcall ht) d hd hl
            unfold AsRead
            dsimp only
            rw [hp, hst]
            exact ⟨rfl, rfl⟩
          · have huses := (hr.uses (P := fun (t : Request) (q : Stmt) => q.area ∈ t.areas)
              (by simp [LedgerStore.start, Store.init]) Request.program_keeps
              (fun t p hp => Request.next_keeps hp)).1 i t _ hsess
            exact asRead_outside (Request.areas_elsewhere ht
              (fun e he => ih.sessions i e _ (he ▸ hsess)) huses.1)
      · exact hidle rfl rfl
      · exact hidle rfl rfl
      · exact hidle rfl rfl

/-! ## From the outbox to the producer -/

/-- Some event of the outbox has this payload. -/
def InOutbox (db : Db) (v : Payload) : Prop := ∃ e ∈ db.outboxEvents.rows, e.payload = v

omit [Runtime] in
theorem InOutbox.grows {db db' : Db} {v : Payload} (h : InOutbox db v) (hg : db.Grows db') :
    InOutbox db' v := by
  obtain ⟨e, he, rfl⟩ := h
  obtain ⟨e', he', heq⟩ := hg.events e.id e (Table.get_of_mem he)
  exact ⟨e', (Table.get_eq_some.mp he').1, by rw [← heq]⟩

/-- The contract of the messages: they carry payloads of the outbox. -/
def posting : Contract Db Write Res Outside Stmt Inp Exn Request Reply where
  rely _ _ _ := True
  inv s := ∀ h ∈ s.aux.handed, InOutbox s.db h.msg.value
  post _ _ _ _ := True

omit [Runtime] in
theorem posting_preorder : posting.Preorder where
  refl := fun _ _ => trivial
  trans := fun _ _ => trivial

/-- The statements that hand nothing over. -/
def Stmt.Mute (q : Stmt) : Prop := ∀ producer msg, q ≠ .produce producer msg

section posting

variable {i : Sid} {t : Request} {q : Stmt} {inp : Inp} {s s' : LedgerStore} {r : Except Exn q.Ans}
  {β : Type} {events : List OutboxEvent}

omit [Runtime] in
/-- What is handed over stays so, and only `produce` hands over more. -/
theorem exec_handed (hx : exec engine i t q inp s = some (r, s')) :
    (∃ l, s'.aux.handed = s.aux.handed ++ l ∧ ∀ h ∈ l, ∃ producer, q
      = .produce producer h.msg) := by
  obtain ⟨e, he, hr, haux, -⟩ := exec_outcome hx
  have he : run q inp i (s.db.applyAll (s.pending i)) s.aux = some e := he
  have hsame : e.aux.handed = s.aux.handed →
      ∃ l, s'.aux.handed = s.aux.handed ++ l ∧ ∀ h ∈ l, ∃ producer, q = .produce producer h.msg :=
    fun h => ⟨[], by rw [haux, h, List.append_nil], by simp⟩
  by_cases hq : q.area = .send
  · cases q with
    | produce producer msg =>
        cases ha : e.ans with
        | ok a =>
            obtain ⟨hsend, -⟩ := runProduce_sends he ha
            obtain ⟨producer', hh⟩ := hsend.handed
            refine ⟨_, by rw [haux, hh], fun h hmem => ?_⟩
            obtain ⟨m, hm, rfl⟩ := List.mem_map.mp hmem
            exact ⟨producer, by rw [List.mem_singleton.mp hm]⟩
        | error x => exact hsame (by rw [(runProduce_error he ha).2])
    | flush producer =>
        cases ha : e.ans with
        | ok a =>
            obtain ⟨hsend, -⟩ := runFlush_sends he ha
            obtain ⟨producer', hh⟩ := hsend.handed
            exact hsame (by rw [hh]; simp)
        | error x => exact hsame (by rw [(runFlush_error he ha).2])
    | _ => exact absurd hq (by simp [Stmt.area])
  · exact hsame ((run_within he).sent hq).handed

omit [Runtime] in
/-- A statement keeps the contract if what it hands over is in the outbox. -/
theorem guar_posting (hi : posting.inv s) (hx : exec engine i t q inp s = some (r, s'))
    (hq : ∀ producer msg, q = .produce producer msg → InOutbox s.db msg.value) :
    Guar engine posting i s s' := by
  refine ⟨fun _ _ => trivial, fun h hh => ?_⟩
  have hgrow := exec_grows hx
  obtain ⟨l, hl, hnew⟩ := exec_handed hx
  rw [hl, List.mem_append] at hh
  rcases hh with hh | hh
  · exact (hi h hh).grows hgrow
  · obtain ⟨producer, hp⟩ := hnew h hh
    exact (hq producer h.msg hp).grows hgrow

omit [Runtime] in
theorem triple_mute {p : Tx β} {A : LedgerStore → Prop} {Q : Except Exn β → LedgerStore → Prop}
    (hp : p.Uses Stmt.Mute) (hQ : ∀ r s, Q r s) : Triple engine posting i t A p Q := by
  refine (Triple.uses hp (A := fun _ => True) (fun _ _ h _ => h) ?_).conseq (fun _ _ _ => trivial)
    (fun r s _ => hQ r s)
  intro q hq s inp r s' hi _ hx
  exact ⟨guar_posting hi hx (fun producer msg he => absurd he (hq producer msg)), trivial⟩

/-- The events of a batch are in the outbox. -/
def Listed (events : List OutboxEvent) (s : LedgerStore) : Prop :=
  ∀ e ∈ events, InOutbox s.db e.payload

omit [Runtime] in
theorem Listed.stable : Stable engine posting i (Listed events) := by
  intro s s' h hr e he
  obtain ⟨cs, -, hdb, -⟩ := hr.frame.commits
  exact (h e he).grows (by rw [hdb]; exact .applyAll _ _)

omit [Runtime] in
theorem triple_handOver {producer : Nat} {topic : String} {l : List OutboxEvent}
    {errors : List Nat} :
    Triple engine posting i t (Listed l) (OutboxPublisher.produceAll producer topic l errors)
      (fun _ _ => True) := by
  have htrue : Stable engine posting i (fun _ => True) := fun _ _ h _ => h
  induction l generalizing errors with
  | nil => exact .ret Listed.stable (fun _ _ _ => trivial)
  | cons e l ih =>
      have hproduce : Triple engine posting i t (Listed (e :: l))
          (query (.produce producer (OutboxPublisher.message topic e))) (fun _ => Listed l) := by
        refine .perform Listed.stable (fun _ => Listed.stable) (fun s inp r s' hi hl hx => ⟨?_, ?_⟩)
        · refine guar_posting hi hx (fun producer' msg he => ?_)
          cases he
          exact hl e (.head _)
        · exact fun e' he' => (hl e' (.tail _ he')).grows (exec_grows hx)
      exact .bind posting_preorder hproduce (fun _ => ih)
        (fun _ => .raise Listed.stable (fun _ _ _ => trivial))

omit [Runtime] in
theorem mute_markAll (events : List OutboxEvent) :
    (OutboxPublisher.markAll events).Uses Stmt.Mute := by
  induction events with
  | nil => trivial
  | cons e events ih =>
      refine .bind (.bind (.perform (by simp [Stmt.Mute])) (fun now => ?_)) (fun _ => ih)
      exact .bind (.perform (by simp [Stmt.Mute])) (fun _ => trivial)

omit [Runtime] in
/-- **A publisher hands over what it has fetched.** -/
theorem triple_posted {producer : Nat} {topic : String} {n : Nat} :
    Triple engine posting i t (fun s => s.pending i = [])
      (OutboxPublisher.iteration producer topic n) (fun _ _ => True) := by
  have htrue : Stable engine posting i (fun _ => True) := fun _ _ h _ => h
  have hpend : Stable engine posting i (fun s => s.pending i = []) :=
    fun _ _ h hr => hr.frame.pending.trans h
  have hraise : ∀ {β : Type} (e : Exn), Triple engine posting i t (fun _ => True)
      (.raise e : Tx β) (fun _ _ => True) := fun _ => .raise htrue (fun _ _ _ => trivial)
  have hfetch : Triple engine posting i t (fun s => s.pending i = [])
      (OutboxRepository.fetchUnpublished n) (Ends Listed (fun _ => True)) := by
    refine .perform hpend (Ends.stable (fun _ => Listed.stable) htrue)
      (fun s inp r s' hi hp hx => ⟨?_, ?_⟩)
    · exact guar_posting hi hx (by simp)
    · cases r with
      | error x => trivial
      | ok events =>
          -- a batch is made of rows of the committed outbox
          obtain ⟨e, he, hr, -, hdb, -⟩ := exec_quiet hx (by simp)
          rw [hp, Db.applyAll_nil, run] at he
          split at he
          · cases he
            intro e he
            rw [(reads_ok hr.symm).2.1, List.mem_filterMap] at he
            obtain ⟨id, -, hget⟩ := he
            rw [hdb]
            exact ⟨e, (Table.get_eq_some.mp hget).1, rfl⟩
          · exact absurd he (by simp)
  have hbatch : Triple engine posting i t (fun s => s.pending i = [])
      (OutboxPublisher.publishBatch producer topic n) (fun _ _ => True) := by
    refine .bind posting_preorder hfetch (fun events => ?_) hraise
    show Triple engine posting i t (Listed events) (if events = [] then _ else _) _
    by_cases he : events = []
    · rw [if_pos he]
      exact .ret Listed.stable (fun _ _ _ => trivial)
    · rw [if_neg he]
      refine .bind posting_preorder triple_handOver (fun errors => ?_) hraise
      -- what follows the hand-over sends nothing
      refine triple_mute ?_ (fun _ _ => trivial)
      refine .bind (.perform (by simp [Stmt.Mute])) (fun _ => ?_)
      exact .bind (.raiseIf _ _) (fun _ => .bind (mute_markAll events) (fun _ => trivial))
  unfold OutboxPublisher.iteration
  dsimp only
  rw [attempt_bind]
  have hcommit : Triple engine posting i t (fun s => s.pending i = []) (do
      let published ← OutboxPublisher.publishBatch producer topic n
      query .commit
      pure published) (fun _ _ => True) := by
    refine .bind posting_preorder hbatch (fun published => ?_) hraise
    exact triple_mute (.bind (.perform (by simp [Stmt.Mute])) (fun _ => trivial))
      (fun _ _ => trivial)
  refine .handle posting_preorder hcommit (fun r => triple_mute ?_ (fun _ _ => trivial))
  cases r with
  | ok published => exact .bind (.perform (by simp [Stmt.Mute])) (fun _ => trivial)
  | error x =>
      exact .bind (.perform (by simp [Stmt.Mute])) (fun _ => .bind (.perform (by simp [Stmt.Mute]))
        (fun _ => trivial))

end posting

omit [Runtime] in
/-- Only publishers send. -/
theorem Request.areas_mute {t : Request} (h : ∀ producer topic n, t ≠ .publish producer topic n)
    {q : Stmt} (hq : q.area ∈ t.areas) : q.Mute := by
  rintro producer msg rfl
  cases t with
  | publish producer topic n => exact h producer topic n rfl
  | _ => exact absurd hq (by simp [Request.areas, Stmt.area])

theorem posting_sound {db₀ : Db} : Sound system posting (LedgerStore.start db₀) where
  pre := posting_preorder
  init := by
    refine ⟨fun h hh => ?_, fun i => .init i db₀ Outside.init⟩
    · exact absurd hh (by simp [LedgerStore.start, Store.init, Outside.init])
  start := by
    intro i t s hi hf
    have hother : (∀ producer topic n, t ≠ .publish producer topic n) →
        Triple engine posting i t (fun _ => True) t.program (fun _ _ => True) := fun h =>
      triple_mute (Uses.mono t.program_keeps (fun _ hq => Request.areas_mute h hq))
        (fun _ _ => trivial)
    cases t with
    | publish producer topic n => exact Triple.map triple_posted s hi hf.pending
    | _ => exact hother (by simp) s hi trivial
  again := by
    intro i t p a s hp hi _
    have hp : t.next = some p := hp
    have hnot : ∀ producer topic n, t ≠ .publish producer topic n := by
      rintro producer topic n rfl
      exact absurd hp (by simp [Request.next])
    exact triple_mute (A := fun _ => True) (Uses.mono (Request.next_keeps hp)
      (fun _ hq => Request.areas_mute hnot hq)) (fun _ _ => trivial) s hi trivial
  crash := fun i s hi => ⟨fun _ _ => trivial, hi⟩
  env := by
    intro x o s hi hx
    have hx : s.aux.move x = some o := hx
    refine ⟨fun _ => trivial, ?_⟩
    intro h hh
    have hh : h ∈ o.handed := hh
    rw [(Outside.move_same hx).2] at hh
    exact hi h hh

/-! ## From the producer to the topic -/

/-- Every record of the topic is the value of a message that was handed over. -/
def Sent (o : Outside) : Prop :=
  ∀ p v, v ∈ o.partitions p → ∃ h ∈ o.handed, v = .event h.msg.value

omit [Runtime] in
/-- No statement writes to the topic. -/
theorem exec_partitions {i : Sid} {t : Request} {q : Stmt} {inp : Inp} {s s' : LedgerStore}
    {r : Except Exn q.Ans} (hx : exec engine i t q inp s = some (r, s')) :
    s'.aux.partitions = s.aux.partitions := by
  obtain ⟨e, he, -, haux, -⟩ := exec_outcome hx
  have he : run q inp i (s.db.applyAll (s.pending i)) s.aux = some e := he
  rw [haux]
  by_cases hq : q.area = .consume
  · cases q with
    | poll =>
        rcases runPoll_cases he with ⟨hsame, -⟩ | ⟨p, v, -, -, -, -, hmoved⟩
        · rw [hsame]
        · rw [hmoved]
    | commitOffset p n =>
        cases he
        rcases runCommitOffset_cases inp s.aux p n with ⟨c, hc⟩ | hc
        · rw [hc]
          rfl
        · rw [hc]
    | closeConsumer =>
        cases he
        rfl
    | _ => exact absurd hq (by simp [Stmt.area])
  · exact ((run_within he).group hq).partitions

omit [Runtime] in
theorem Sent.env {o o' : Outside} {m : Move} (h : Sent o) (hm : o.move m = some o')
    (hno : ∀ p v, m ≠ .append p v) : Sent o' := by
  cases m with
  | ack n p =>
      obtain ⟨x, hh, rfl⟩ := Outside.ack_cases hm
      intro p' v hv
      have hv : v ∈ upd o.partitions p (o.partitions p ++ [.event x.msg.value]) p' := hv
      by_cases hp : p' = p
      · subst hp
        rw [upd_self, List.mem_append] at hv
        rcases hv with hv | hv
        · exact h p' v hv
        · exact ⟨x, List.mem_of_getElem? hh, List.mem_singleton.mp hv⟩
      · rw [upd_ne _ _ hp] at hv
        exact h p' v hv
  | append p v => exact absurd rfl (hno p v)
  | settle k =>
      obtain ⟨p, n, -, rfl⟩ := Outside.settle_cases hm
      exact h
  | assign p i => cases hm; exact h
  | lose k => cases hm; exact h
  | expire id => cases hm; exact h

/-- **What is fetched from the topic is in the outbox**, and was when it was fetched. -/
theorem guided_sent {w : LedgerWorld} (h : Guided system OnePipeline (LedgerStore.start .empty) w) :
    Sent w.store.aux ∧ ∀ o ∈ w.store.trace, ∀ p e, .event e ∈ o.aux.partitions p →
      InOutbox w.store.db e := by
  induction h with
  | init =>
      refine ⟨fun p v hv => ?_, fun o ho => ?_⟩
      · exact absurd hv (by simp [World.init, LedgerStore.start, Store.init, Outside.init])
      · exact absurd ho (by simp [World.init, LedgerStore.start, Store.init])
  | tail hg hrule hs ih =>
      rename_i w₁ w₂ a
      obtain ⟨hsent, htrace⟩ := ih
      have hposted : posting.inv w₁.store := (posting_sound.reachable hg.reachable).inv
      refine ⟨?_, fun o ho p e he => ?_⟩
      · rcases step_cases hs with ⟨t, -, rfl⟩ | ⟨i, inp, t, q, k, r, s', -, -, hx, rfl⟩
          | ⟨i, inp, t, x, p, -, -, -, rfl⟩ | ⟨i, x, -, -, rfl⟩ | ⟨x, o, rfl, hm, rfl⟩
        · exact hsent
        · obtain ⟨l, hl, -⟩ := exec_handed hx
          intro p v hv
          have hv : v ∈ s'.aux.partitions p := hv
          rw [exec_partitions hx] at hv
          obtain ⟨h, hh, hv⟩ := hsent p v hv
          exact ⟨h, by rw [hl]; exact List.mem_append_left _ hh, hv⟩
        · exact hsent
        · exact hsent
        · exact hsent.env hm hrule
      · obtain ⟨cs, os, -, hos, hdb, hmet, -⟩ := step_history hs
        have hgrow : w₁.store.db.Grows w₂.store.db := by rw [hdb]; exact .applyAll _ _
        rw [hos, List.mem_append] at ho
        rcases ho with ho | ho
        · exact (htrace o ho p e he).grows hgrow
        · rw [(hmet o ho).2.1] at he
          obtain ⟨h, hh, hv⟩ := hsent p _ he
          rw [Value.event.inj hv]
          exact (hposted h hh).grows hgrow

/-! ## From the inbox to the ledger -/

/-- The transactions of one currency and type whose events are filed. -/
def Db.processed (db : Db) (k : String × String) : List Transaction :=
  db.transactions.rows.filter (fun t => decide (InInbox db t.id ∧ (t.currency, t.type.value) = k))

/-- The row of the rollup the ledger makes of the filed transactions. -/
def Db.ledgerSummary (db : Db) (k : String × String) : Option TransactionStat :=
  match db.processed k with
  | [] => none
  | t :: ts => some ⟨k.1, k.2, Int.ofNat (ts.length + 1),
      ((t :: ts).map (fun t => db.amountOf t.id)).sum⟩

/-- An event says of a transaction what the ledger says of it. -/
structure Attests (db : Db) (e : Payload) (t : Transaction) : Prop where
  row : t ∈ db.transactions.rows
  id : t.id = e.transactionId
  aggregate : (t.currency, t.type.value) = e.aggregate
  amount : db.amountOf t.id = e.amount

omit [Runtime] in
/-- An event of the outbox records a transaction. -/
theorem InOutbox.records {db : Db} {e : Payload} (h : InOutbox db e) (ha : Announced db) :
    ∃ t, Attests db e t := by
  obtain ⟨ev, hev, rfl⟩ := h
  obtain ⟨t, ht, hid, -⟩ := ha.2 ev hev
  obtain ⟨ev', -, ⟨-, hagree⟩, huniq⟩ := ha.1 t ht
  have heq : ev = ev' := huniq ev hev hid.symm
  subst heq
  obtain ⟨htxn, htype, -, -, hcur, credit, debit, hcredit, -, hamount, -⟩ := hagree
  refine ⟨t, ht, htxn.symm, ?_, ?_⟩
  · rw [Payload.aggregate, htype, hcur]
  · rw [Db.amountOf, hcredit]
    exact hamount

omit [Runtime] in
/-- **The rollup of events that record transactions is the ledger's summary.** -/
theorem Rollup.ledger {db : Db} {events : List Payload} (h : Rollup db events)
    (hrec : ∀ e ∈ events, ∃ t, Attests db e t) (k : String × String) :
    summary events k = db.ledgerSummary k := by
  have hsame : ∀ e ∈ events, ∀ t ∈ db.transactions.rows, t.id = e.transactionId
      → Attests db e t := by
    intro e he t ht hid
    obtain ⟨t', hr⟩ := hrec e he
    have heq : t = t' := by
      have h₁ := Table.get_of_mem ht
      have h₂ := Table.get_of_mem hr.row
      rw [hid, ← hr.id] at h₁
      exact Option.some.inj (h₁.symm.trans h₂)
    rw [heq]
    exact hr
  -- the counted events and the processed transactions have the same ids
  have hmem : ∀ id, id ∈ (countedFor k events).map Payload.transactionId
      ↔ id ∈ (db.processed k).map Transaction.id := by
    intro id
    unfold countedFor Db.processed
    constructor
    · intro hid
      obtain ⟨e, he, rfl⟩ := List.mem_map.mp hid
      obtain ⟨he, hk⟩ := List.mem_filter.mp he
      obtain ⟨t, hr⟩ := hrec e he
      refine List.mem_map.mpr ⟨t, List.mem_filter.mpr ⟨hr.row, decide_eq_true ⟨?_, ?_⟩⟩, hr.id⟩
      · rw [h.recorded, hr.id]
        exact List.mem_map_of_mem he
      · exact hr.aggregate.trans (of_decide_eq_true hk)
    · intro hid
      obtain ⟨t, ht, rfl⟩ := List.mem_map.mp hid
      obtain ⟨ht, hk⟩ := List.mem_filter.mp ht
      obtain ⟨hin, hk⟩ := of_decide_eq_true hk
      obtain ⟨e, he, hid⟩ := List.mem_map.mp ((h.recorded _).mp hin)
      have hr := hsame e he t ht hid.symm
      exact List.mem_map.mpr ⟨e, List.mem_filter.mpr
        ⟨he, decide_eq_true (hr.aggregate.symm.trans hk)⟩, hid⟩
  have hperm : ((countedFor k events).map Payload.transactionId).Perm
      ((db.processed k).map Transaction.id) := by
    refine (List.perm_ext_iff_of_nodup ?_ ?_).mpr hmem
    · exact h.distinct.sublist ((List.filter_sublist).map _)
    · exact db.transactions.nodup.sublist ((List.filter_sublist).map _)
  have hlen : (countedFor k events).length = (db.processed k).length := by
    have hl := hperm.length_eq
    rwa [List.length_map, List.length_map] at hl
  have hsum : ((countedFor k events).map Payload.amount).sum
      = ((db.processed k).map (fun t => db.amountOf t.id)).sum := by
    have hs := (hperm.map db.amountOf).sum_eq
    rw [List.map_map, List.map_map] at hs
    refine Eq.trans (congrArg List.sum (List.map_congr_left (fun e he => ?_))) hs
    obtain ⟨t, hr⟩ := hrec e (List.mem_filter.mp he).1
    rw [Function.comp_apply, ← hr.id]
    exact hr.amount.symm
  unfold summary Db.ledgerSummary
  cases hc : countedFor k events with
  | nil =>
      rw [hc, List.length_nil] at hlen
      rw [List.eq_nil_of_length_eq_zero hlen.symm]
  | cons e es =>
      rw [hc] at hlen hsum
      cases hp : db.processed k with
      | nil => rw [hp] at hlen; exact absurd hlen (by simp)
      | cons t ts =>
          rw [hp] at hlen hsum
          rw [List.length_cons, List.length_cons] at hlen
          dsimp only
          rw [hsum, hlen]

/-- **Every filed event is that of a committed transaction, and the rollup is what the ledger
makes of exactly the filed transactions**, in every run of the pipeline with one consumer at a
time. -/
theorem guided_pipelined (w : LedgerWorld)
    (h : Guided system OnePipeline (LedgerStore.start .empty) w) :
    (∀ p ∈ w.store.db.processedEvents.rows, ∃ t ∈ w.store.db.transactions.rows, t.id
      = p.transactionId)
      ∧ ∀ k, w.store.db.transactionStats.get k = w.store.db.ledgerSummary k := by
  have hsole := guided_sole h
  obtain ⟨events, hroll, hgiven⟩ := (tally_sound.reachable h.reachable).inv.rollup hsole.steady
  have hrec : ∀ e ∈ events, ∃ t, Attests w.store.db e t := by
    intro e he
    obtain ⟨c, hc, -, hh⟩ := hgiven e he
    rcases hh with ht | ⟨-, o, ho, -, -, p, -, hv⟩
    · exact absurd ht (hsole.commits c hc e)
    · exact ((guided_sent h).2 o ho p e (List.mem_of_getElem? hv)).records
        (reachable_announced w h.reachable)
  refine ⟨fun p hp => ?_, fun k => (hroll.stats k).trans (hroll.ledger hrec k)⟩
  rw [hroll.inbox] at hp
  obtain ⟨e, he, rfl⟩ := List.mem_map.mp hp
  obtain ⟨t, hr⟩ := hrec e he
  exact ⟨t, hr.row, hr.id⟩

/-- Whether session `i` is a consumer that has not ended. -/
def consuming (w : LedgerWorld) (i : Sid) : Bool :=
  match w.sess i with
  | some (.analyticsConsumer, .raise _) => false
  | some (.analyticsConsumer, _) => true
  | _ => false

/-- A test for `OnePipeline`. -/
def pipelineOk (w : LedgerWorld) : LedgerAction → Bool
  | .spawn (.handleEvent _) => false
  | .spawn .analyticsConsumer => (List.range w.next).all (fun i => !consuming w i)
  | .env (.append _ _) => false
  | _ => true

omit [Runtime] in
theorem consuming_complete {w : LedgerWorld} {i : Sid} (h : Consuming w i) :
    consuming w i = true := by
  obtain ⟨p, hp, hx⟩ := h
  unfold consuming
  rw [hp]
  cases p with
  | raise x => exact absurd rfl (hx x)
  | ret a => rfl
  | call q k => rfl

theorem pipelineOk_sound {w : LedgerWorld} {a : LedgerAction} (h : ReachableFrom .empty w)
    (ha : pipelineOk w a = true) : OnePipeline w a := by
  cases a with
  | spawn t =>
      refine ⟨fun e he => ?_, fun he i hi => ?_⟩
      · subst he
        exact absurd ha (by simp [pipelineOk])
      · subst he
        have hc := consuming_complete hi
        obtain ⟨p, hp, -⟩ := hi
        have hno := List.all_eq_true.mp ha i (List.mem_range.mpr (h.signed.born i _ hp))
        rw [hc] at hno
        exact absurd hno (by simp)
  | env x =>
      rintro p v rfl
      exact absurd ha (by simp [pipelineOk])
  | exec i inp => trivial
  | crash i => trivial

omit [Runtime] in
theorem consumed_pipelined : ∃ w,
    (Guided (@system plainRuntime) OnePipeline (LedgerStore.start .empty) w
    ∧ w.store.db.transactionStats.get ("INR", "DEPOSIT") = some ⟨"INR", "DEPOSIT", 1, 100⟩)
    ∧ (∀ p ∈ w.store.db.processedEvents.rows, ∃ t ∈ w.store.db.transactions.rows, t.id
      = p.transactionId)
    ∧ ∀ k, w.store.db.transactionStats.get k = w.store.db.ledgerSummary k := by
  have hrun : ((@system plainRuntime).guide pipelineOk
    (World.init (LedgerStore.start .empty)) consumed).map
      (fun w => w.store.db.transactionStats.get ("INR", "DEPOSIT"))
      = some (some ⟨"INR", "DEPOSIT", 1, 100⟩) := by decide +kernel
  obtain ⟨w, hw, hv⟩ := Option.map_eq_some_iff.mp hrun
  have hg := Guided.init.guide (fun h ha => @pipelineOk_sound plainRuntime _ _ h ha) hw
  exact ⟨w, ⟨hg, hv⟩, @guided_pipelined plainRuntime w hg⟩

end WalletLedger
