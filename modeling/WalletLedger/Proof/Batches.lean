import WalletLedger.Proof.Delivery
import WalletLedger.Proof.Receipt

/-!
# A batch is published as a whole or not at all

An iteration of the publisher leaves its two loops at any element: a call of the producer
raises, a report of an error has been collected when `flush` returns, an UPDATE fails, the
process dies. Whatever happens, there is one statement by which anything reaches the
database, its commit. The trail up to the commit is that of a batch that has gone
through, so what is committed are the stamps of the whole batch.

That the rows are still as they were fetched is where a single publisher is needed: between
two statements of an iteration nobody else stamps anything.
-/

namespace WalletLedger

open Isolation Prog

/-! ## What an iteration has done -/

/-- The events a statement has answered with. -/
def polled (o : LedgerObs) : List OutboxEvent :=
  match o.stmt with
  | .selectUnpublished _ => if o.ok then o.inp.batch.filterMap o.db.outboxEvents.get else []
  | _ => []

/-- The events fetched by the statements of a list. -/
def fetched (os : List LedgerObs) : List OutboxEvent := os.flatMap polled

/-- The message a statement has handed over, and the producer it was handed to. -/
def produced (o : LedgerObs) : Option (Nat × Message) :=
  match o.stmt with
  | .produce producer msg => if o.ok then some (producer, msg) else none
  | _ => none

/-- A call of the producer raised, or reported an error while it ran. -/
def Spoiled (o : LedgerObs) : Prop :=
  o.stmt.area = .send ∧ (o.ok = false ∨ ∃ r ∈ o.inp.reports, r.2 ≠ none)

/-- The writes that stamp some events, in order. -/
def Stamps (events : List OutboxEvent) (ws : List Write) : Prop :=
  List.Forall₂ (fun e w => ∃ t, w = Write.setPublished e.id t) events ws

section trail

variable {i : Sid} {t : Request} {ws ws' : List Write} {os : List LedgerObs} {producer limit : Nat}
  {topic : String} {events : List OutboxEvent} {errors errors' : List Nat}

/-- What a statement outside the publisher's areas does not do. -/
theorem bystanding {o : LedgerObs} (hq : o.stmt.area ≠ .send) : produced o = none ∧ ¬Spoiled o := by
  refine ⟨?_, fun h => hq h.1⟩
  unfold produced
  cases hs : o.stmt <;> first | rfl | exact absurd (by rw [hs]; rfl) hq

theorem fetched_nil {os : List LedgerObs} (h : ∀ o ∈ os, ∀ n, o.stmt ≠ .selectUnpublished n) :
    fetched os = [] := by
  refine List.flatMap_eq_nil_iff.mpr (fun o ho => ?_)
  unfold polled
  cases hs : o.stmt <;> first | rfl | exact absurd hs (h o ho _)

theorem produced_eq {o : LedgerObs} {msg : Message} (h : produced o = some (producer, msg)) :
    o.stmt = .produce producer msg ∧ o.ok = true := by
  unfold produced at h
  split at h
  · rename_i p m hq
    split at h
    · rename_i hok
      cases h
      exact ⟨hq, hok⟩
    · exact absurd h (by simp)
  · exact absurd h (by simp)

/-- Calls of the producer write nothing. -/
theorem runProduce_buffer {inp : Inp} {o : Outside} {msg : Message}
    {e : Effect Write Res Outside Exn (List (Option Nat))}
    (h : runProduce inp i o producer msg = some e) : e.buffer ws = ws := by
  rcases runProduce_cases h with ⟨c, -, rfl⟩ | ⟨o', -, rfl⟩
  · exact List.append_nil ws
  · exact List.append_nil ws

theorem runFlush_buffer {inp : Inp} {o : Outside}
    {e : Effect Write Res Outside Exn (List (Option Nat) × Nat)}
    (h : runFlush inp i o producer = some e) : e.buffer ws = ws := by
  rcases runFlush_cases h with ⟨c, -, rfl⟩ | ⟨o', -, rfl⟩
  · exact List.append_nil ws
  · exact List.append_nil ws

/-- No error has been collected from the reports of a statement that has returned: there
was none. -/
theorem unspoiled {o : LedgerObs} (hok : o.ok = true)
    (h : OutboxPublisher.onDelivery errors (o.inp.reports.map Prod.snd) = []) :
    errors = [] ∧ ¬Spoiled o := by
  obtain ⟨herr, hall⟩ := onDelivery_nil h
  refine ⟨herr, ?_⟩
  rintro ⟨-, hno | ⟨r, hr, hsome⟩⟩
  · rw [hok] at hno
    exact absurd hno (by simp)
  · exact hsome (hall r hr)

theorem produce_ok {msg : Message} {rs : List (Option Nat)}
    (h : Trail engine i t (query (.produce producer msg)) ws os (ofExcept (.ok rs)) ws') :
    ∃ o : LedgerObs, os = [o] ∧ produced o = some (producer, msg) ∧ ws' = ws
      ∧ ∀ errors, OutboxPublisher.onDelivery errors rs = [] → errors = [] ∧ ¬Spoiled o := by
  obtain ⟨inp, db, aux, n, eff, rfl, hrun, hans, rfl⟩ := h.perform_ended
  have hok : eff.ans.isOk = true := by rw [← hans]; rfl
  obtain ⟨-, rfl⟩ := runProduce_sends hrun hans.symm
  exact ⟨_, rfl, by simp [produced, hok], runProduce_buffer hrun, fun _ herr => unspoiled hok herr⟩

theorem flush_ok {flushed : List (Option Nat) × Nat}
    (h : Trail engine i t (query (.flush producer)) ws os (ofExcept (.ok flushed)) ws') :
    ∃ o : LedgerObs, os = [o] ∧ produced o = none ∧ polled o = [] ∧ ws' = ws
      ∧ ∀ errors, OutboxPublisher.onDelivery errors flushed.1 = [] → errors = [] ∧ ¬Spoiled o := by
  obtain ⟨inp, db, aux, n, eff, rfl, hrun, hans, rfl⟩ := h.perform_ended
  have hok : eff.ans.isOk = true := by rw [← hans]; rfl
  obtain ⟨-, hrs⟩ := runFlush_sends hrun hans.symm
  exact ⟨_, rfl, rfl, rfl, runFlush_buffer hrun, fun _ herr => unspoiled hok (hrs ▸ herr)⟩

/-- The loop of `produce` calls, if it comes to its end: every event has been handed over, and if no
error has been collected, none was reported. -/
theorem produceAll_ok (h : Trail engine i t (OutboxPublisher.produceAll producer topic
    events errors) ws
      os (ofExcept (.ok errors')) ws') :
    ws' = ws ∧ os.filterMap produced
      = events.map (fun e => (producer, OutboxPublisher.message topic e))
      ∧ (errors' = [] → errors = [] ∧ ∀ o ∈ os, ¬Spoiled o) := by
  induction events generalizing errors os ws with
  | nil =>
      obtain ⟨rfl, hr, rfl⟩ := h.ret_inv
      have he : (.ok errors' : Except Exn (List Nat)) = .ok errors := ofExcept_inj hr
      cases he
      exact ⟨rfl, rfl, fun he => ⟨he, by simp⟩⟩
  | cons e events ih =>
      obtain ⟨rs, os₁, os₂, ws₁, rfl, h₁, h₂⟩ := h.bind_ok
      obtain ⟨o, rfl, hsent, rfl, hfirst⟩ := produce_ok h₁
      obtain ⟨rfl, hrest, hclean⟩ := ih h₂
      refine ⟨rfl, ?_, fun he => ?_⟩
      · rw [List.filterMap_append, hrest]
        simp [hsent]
      · obtain ⟨herr, hall⟩ := hclean he
        obtain ⟨herr, ho⟩ := hfirst errors herr
        exact ⟨herr, by simpa using ⟨ho, hall⟩⟩

/-- A stamp is buffered, unless the server fails or the row is gone. -/
theorem markPublished_ended {e : OutboxEvent} {r : Except Exn OutboxEvent}
    (h : Trail engine i t (OutboxRepository.markPublished e) ws os (ofExcept r) ws') :
    (∃ now, r = .ok (e.stamp now) ∧ ws' = ws ++ [.setPublished e.id now])
      ∨ (∃ x, r = .error x) ∧ ∃ o ∈ os, o.inp.fault = none →
        ((o.db.applyAll ws).outboxEvents.get e.id).isSome = false := by
  rcases h.bind_ended with ⟨x, hx, -⟩ | ⟨now, os₁, os₂, ws₁, rfl, h₁, h₂⟩
  · -- the clock does not fail
    obtain ⟨inp, db, aux, n, eff, -, hrun, hans, -⟩ := hx.perform_ended
    cases hrun
    exact absurd hans (by simp)
  obtain ⟨inp, db, aux, n, eff, -, hrun, -, rfl⟩ := h₁.perform_ended
  cases hrun
  have hbuf : (⟨[], [], .stay, .ok inp.now, aux⟩ : Effect Write Res Outside Exn
      Time).buffer ws = ws :=
    List.append_nil ws
  have hq : ∀ inp i db o, run (.updatePublished e.id now) inp i db o
      = some (writes inp o none [.event e.id]
        (if (db.outboxEvents.get e.id).isSome then none else some .stale)
        (.setPublished e.id now) () o) := fun _ _ _ _ => rfl
  rcases h₂.bind_ended with ⟨x, hx, rfl⟩ | ⟨u, os₃, os₄, ws₂, rfl, h₃, h₄⟩
  · obtain ⟨o, rfl, -, ⟨-, -, -, hr, -⟩ | ⟨hno, -, -⟩⟩ := writes_ended hq hx
    · exact absurd hr (by simp)
    · refine .inr ⟨⟨x, rfl⟩, o, by simp, fun hf => ?_⟩
      rw [hbuf] at hno
      by_contra hrow
      exact hno ⟨hf, rfl, if_pos (Bool.eq_true_of_not_eq_false hrow)⟩
  · obtain ⟨o, rfl, -, ⟨-, -, -, -, rfl⟩ | ⟨-, ⟨x, hx⟩, -⟩⟩ := writes_ended hq h₃
    · obtain ⟨-, hr, rfl⟩ := h₄.ret_inv
      exact .inl ⟨now, ofExcept_inj hr, by rw [hbuf]⟩
    · exact absurd hx (by simp)

/-- The loop of stamps, if it comes to its end. -/
theorem markAll_ok (h : Trail engine i t (OutboxPublisher.markAll events) ws os
    (ofExcept (.ok ())) ws') :
    ∃ vs, ws' = ws ++ vs ∧ Stamps events vs := by
  induction events generalizing os ws with
  | nil =>
      obtain ⟨-, -, rfl⟩ := h.ret_inv
      exact ⟨[], (List.append_nil _).symm, .nil⟩
  | cons e events ih =>
      obtain ⟨e', os₁, os₂, ws₁, rfl, h₁, h₂⟩ := h.bind_ok
      rcases markPublished_ended h₁ with ⟨now, -, rfl⟩ | ⟨⟨x, hx⟩, -⟩
      · obtain ⟨vs, rfl, hvs⟩ := ih h₂
        exact ⟨.setPublished e.id now :: vs, by simp, .cons ⟨now, rfl⟩ hvs⟩
      · exact absurd hx (by simp)

/-- A batch that has gone through: what was fetched has been handed over and stamped. -/
structure Through (producer : Nat) (topic : String) (limit : Nat) (os : List LedgerObs)
    (ws : List Write) : Prop where
  poll : ∃ o ∈ os, o.stmt = .selectUnpublished limit ∧ isBatch o.db limit o.inp.batch = true
    ∧ fetched os = o.inp.batch.filterMap o.db.outboxEvents.get
  handed : os.filterMap produced
    = (fetched os).map (fun e => (producer, OutboxPublisher.message topic e))
  clean : ∀ o ∈ os, ¬Spoiled o
  stamps : Stamps (fetched os) ws

theorem uses_markAll : (OutboxPublisher.markAll events).Uses
    (fun q => q = .now ∨ q.area = .stamp) := by
  induction events with
  | nil => trivial
  | cons e events ih =>
      refine .bind (.bind (.perform (.inl rfl)) (fun now => ?_)) (fun _ => ih)
      exact .bind (.perform (.inr rfl)) (fun _ => trivial)

theorem uses_produceAll : (OutboxPublisher.produceAll producer topic events errors).Uses
    (fun q => q.area = .send) := by
  induction events generalizing errors with
  | nil => trivial
  | cons e events ih => exact .bind (.perform rfl) (fun _ => ih)

/-- A poll that returns has answered with the rows it settled on. -/
theorem fetch_ok {os : List LedgerObs}
    (h : Trail engine i t (OutboxRepository.fetchUnpublished limit) [] os
      (ofExcept (.ok events)) ws') :
    ∃ o : LedgerObs, os = [o] ∧ o.stmt = .selectUnpublished limit
      ∧ isBatch o.db limit o.inp.batch = true
      ∧ events = o.inp.batch.filterMap o.db.outboxEvents.get ∧ polled o = events ∧ ws' = [] := by
  obtain ⟨inp, db, aux, n, eff, rfl, hrun, hans, rfl⟩ := h.perform_ended
  have hrun : run (.selectUnpublished limit) inp i db aux = some eff := hrun
  rw [run] at hrun
  split at hrun
  · rename_i hbatch
    cases hrun
    obtain ⟨hf, hrows, -⟩ := reads_ok hans.symm
    refine ⟨_, rfl, rfl, hbatch, hrows, ?_, ?_⟩
    · rw [hrows]
      simp [polled, reads, hf, Except.isOk, Except.toBool]
    · simp [reads, hf, Effect.buffer]
  · exact absurd hrun (by simp)

/-- A batch that returns has gone through. -/
theorem publishBatch_ok {m : Nat}
    (h : Trail engine i t (OutboxPublisher.publishBatch producer topic limit)
      [] os (ofExcept (.ok m)) ws') : m = (fetched os).length
        ∧ Through producer topic limit os ws' := by
  obtain ⟨events, os₁, os₂, ws₁, rfl, h₁, h₂⟩ := h.bind_ok
  obtain ⟨o, rfl, hstmt, hbatch, hrows, hpoll, rfl⟩ := fetch_ok h₁
  have hfirst : produced o = none ∧ ¬Spoiled o := bystanding (by rw [hstmt]; simp [Stmt.area])
  dsimp only at h₂
  by_cases he : events = []
  · rw [if_pos he] at h₂
    obtain ⟨rfl, hr, rfl⟩ := h₂.ret_inv
    have hm : (.ok m : Except Exn Nat) = .ok 0 := ofExcept_inj hr
    cases hm
    have hf : fetched ([o] ++ []) = [] := by simp [fetched, hpoll, he]
    rw [he] at hrows
    refine ⟨by rw [hf]; rfl, ⟨o, by simp, hstmt, hbatch, hf.trans hrows⟩, ?_,
      by simpa using hfirst.2, ?_⟩
    · rw [hf]
      simp [hfirst.1]
    · rw [hf]
      exact .nil
  · rw [if_neg he] at h₂
    obtain ⟨errors, os₃, os₄, ws₂, rfl, h₃, h₄⟩ := h₂.bind_ok
    obtain ⟨flushed, os₅, os₆, ws₃, rfl, h₅, h₆⟩ := h₄.bind_ok
    obtain ⟨herr, h₇⟩ := raiseIf_ok h₆
    obtain ⟨u, os₇, os₈, ws₄, rfl, h₈, h₉⟩ := h₇.bind_ok
    obtain ⟨rfl, hr, rfl⟩ := h₉.ret_inv
    have hm : (.ok m : Except Exn Nat) = .ok events.length := ofExcept_inj hr
    cases hm
    obtain ⟨rfl, hsent, hclean⟩ := produceAll_ok h₃
    obtain ⟨o', rfl, hnone, hnopoll, rfl, hflush⟩ := flush_ok h₅
    obtain ⟨vs, rfl, hvs⟩ := markAll_ok h₈
    have hmark := (h₈.uses uses_markAll).1
    have hmute : ∀ d ∈ os₇, d.stmt.area ≠ .send := by
      intro d hd
      rcases hmark d hd with hq | hq
      · rw [hq]
        simp [Stmt.area]
      · rw [hq]
        simp
    obtain ⟨hnil, hflushed⟩ := hflush errors (not_not.mp herr)
    obtain ⟨-, hall⟩ := hclean hnil
    have hf : fetched ([o] ++ (os₃ ++ ([o'] ++ (os₇ ++ [])))) = events := by
      have h₃' : os₃.flatMap polled = [] := fetched_nil (fun o ho n hn => by
        have harea := (h₃.uses uses_produceAll).1 o ho
        rw [hn] at harea
        exact absurd harea (by simp [Stmt.area]))
      have h₇' : os₇.flatMap polled = [] := fetched_nil (fun o ho n hn => by
        have harea := hmark o ho
        rw [hn] at harea
        exact absurd harea (by simp [Stmt.area]))
      simp [fetched, hpoll, hnopoll, h₃', h₇']
    refine ⟨by rw [hf], ⟨o, by simp, hstmt, hbatch, hf.trans hrows⟩, ?_, ?_, ?_⟩
    · have h₇' : os₇.filterMap produced = [] :=
        List.filterMap_eq_nil_iff.mpr (fun o ho => (bystanding (hmute o ho)).1)
      rw [hf]
      simp [hfirst.1, hsent, hnone, h₇']
    · intro d hd
      simp only [List.mem_append, List.mem_singleton, List.not_mem_nil, or_false] at hd
      rcases hd with rfl | hd | rfl | hd
      · exact hfirst.2
      · exact hall d hd
      · exact hflushed
      · exact (bystanding (hmute d hd)).2
    · rw [hf]
      exact hvs

/-! ## The trail up to the commit -/

/-- Up to its commit an iteration executes no commit. -/
theorem publishBatch_quiet :
    (OutboxPublisher.publishBatch producer topic limit).Uses (fun q => q ≠ .commit) := by
  refine .bind (.perform (by simp)) (fun events => ?_)
  dsimp only
  split
  · trivial
  · refine .bind (Uses.mono uses_produceAll ?_) (fun _ => .bind (.perform (by simp)) (fun _ => ?_))
    · rintro q hq rfl
      exact absurd hq (by simp [Stmt.area])
    · refine .bind (.raiseIf _ _) (fun _ => .bind (Uses.mono uses_markAll ?_) (fun _ => trivial))
      rintro q (hq | hq) rfl
      · exact absurd hq (by simp)
      · exact absurd hq (by simp [Stmt.area])

/-- **What has been executed when an iteration comes to its commit is a batch that has gone
through.** -/
theorem iteration_committing {K : Except Exn Unit → Tx Reply} (h : Trail engine i t
      (Reply.published <$> OutboxPublisher.iteration producer topic limit) [] os
      (.call .commit K) ws) :
    Through producer topic limit os ws := by
  rw [map_eq] at h
  rcases h.handle_inv with ⟨q, k, h, hp⟩ | ⟨r, os₁, os₂, ws₁, rfl, -, h⟩
  swap
  · -- the reply has been made
    cases r with
    | ok n => exact absurd h.ret_inv.2.1 (by simp)
    | error e => exact absurd h.raise_inv.2.1 (by simp)
  injection hp with hq hk
  subst hq
  unfold OutboxPublisher.iteration at h
  dsimp only at h
  rw [attempt_bind] at h
  rcases h.handle_inv with ⟨q, k', h, hp⟩ | ⟨r, os₁, os₂, ws₁, rfl, -, h⟩
  swap
  · -- what the handler executes
    have hquiet : (Prog.call .commit k : Tx Nat).Uses (fun q => q = .rollback ∨ q = .close) := by
      refine (h.uses ?_).2
      cases r with
      | ok n => exact .bind (.perform (.inr rfl)) (fun _ => trivial)
      | error e =>
          exact .bind (.perform (.inl rfl))
            (fun _ => .bind (.perform (.inr rfl)) (fun _ => trivial))
    rcases hquiet.1 with hq | hq
    · exact absurd hq (by simp)
    · exact absurd hq (by simp)
  injection hp with hq hk
  subst hq
  rw [bind_eq] at h
  rcases h.handle_inv with ⟨q, k'', h, hp⟩ | ⟨r, os₁, os₂, ws₁, rfl, h₁, h₂⟩
  · injection hp with hq hk
    subst hq
    exact absurd rfl (h.uses publishBatch_quiet).2.1
  · cases r with
    | error e => exact absurd h₂.raise_inv.2.1 (by simp)
    | ok m =>
        rcases Trail.call_inv h₂ with ⟨rfl, -, rfl⟩ | ⟨inp, db, aux, n, e, os', rfl, -, h₃⟩
        · rw [List.append_nil]
          exact (publishBatch_ok h₁).2
        · -- the commit has been executed already
          cases hans : e.ans with
          | ok a =>
              rw [hans] at h₃
              exact absurd (Trail.ret_inv h₃).2.1 (by simp)
          | error x =>
              rw [hans] at h₃
              exact absurd (Trail.raise_inv h₃).2.1 (by simp)

/-- After its commit an iteration only closes its session, after a rollback if it has to. -/
theorem iteration_seals : (Reply.published <$> OutboxPublisher.iteration producer topic limit).Seals
    (fun q => q = .commit) (fun q => q = .rollback ∨ q = .close) := by
  rw [map_eq]
  refine .followed ?_ (fun r => by cases r <;> trivial)
  unfold OutboxPublisher.iteration
  dsimp only
  rw [attempt_bind]
  refine .followed ?_ (fun r => ?_)
  · rw [bind_eq]
    refine .handle publishBatch_quiet (fun r => ?_)
    cases r with
    | error e => trivial
    | ok m => exact ⟨fun _ r => by cases r <;> trivial, fun r => by cases r <;> trivial⟩
  · cases r with
    | ok n => exact .bind (.perform (.inr rfl)) (fun _ => trivial)
    | error e =>
        exact .bind (.perform (.inl rfl)) (fun _ => .bind (.perform (.inr rfl)) (fun _ => trivial))

end trail

/-! ## What a batch of stamps does to the outbox -/

section stamps

variable {db : Db} {events : List OutboxEvent} {ws : List Write}

/-- The rows a poll answers with are open, and no two of them are the same. -/
theorem isBatch_rows {limit : Nat} {ids : List Uuid} (h : isBatch db limit ids = true) :
    ((ids.filterMap db.outboxEvents.get).map OutboxEvent.id).Nodup
      ∧ ∀ e ∈ ids.filterMap db.outboxEvents.get,
        db.outboxEvents.get e.id = some e ∧ e.publishedAt = none := by
  simp only [isBatch, Bool.and_eq_true, decide_eq_true_eq] at h
  obtain ⟨⟨⟨⟨⟨hnodup, -⟩, hopen⟩, -⟩, -⟩, -⟩ := h
  refine ⟨?_, fun e he => ⟨?_, ?_⟩⟩
  · refine List.Nodup.sublist ?_ hnodup
    clear hopen hnodup
    induction ids with
    | nil => exact .slnil
    | cons id ids ih =>
        cases hget : db.outboxEvents.get id with
        | none =>
            rw [List.filterMap_cons_none hget]
            exact ih.cons _
        | some e =>
            rw [List.filterMap_cons_some hget, List.map_cons, ← Table.key_of_get hget]
            exact ih.cons_cons _
  · obtain ⟨id, -, hget⟩ := List.mem_filterMap.mp he
    rw [Table.key_of_get hget]
    exact hget
  · exact Option.isNone_iff_eq_none.mp (List.all_eq_true.mp hopen e he)

theorem get_setPublished {id : Uuid} {t : Time} :
    (db.apply (.setPublished id t)).outboxEvents.get id
    = (db.outboxEvents.get id).map (OutboxEvent.stamp t) :=
  Table.get_modify_self (t := db.outboxEvents) (f := OutboxEvent.stamp t) (fun _ => rfl)

theorem get_setPublished_ne {id id' : Uuid} {t : Time} (h : id' ≠ id) :
    (db.apply (.setPublished id t)).outboxEvents.get id' = db.outboxEvents.get id' :=
  Table.get_modify_ne (t := db.outboxEvents) (f := OutboxEvent.stamp t) (fun _ => rfl) h

/-- Stamping touches the stamped events only. -/
theorem Stamps.others (h : Stamps events ws) {id : Uuid} (hid : ∀ e ∈ events, e.id ≠ id) :
    (db.applyAll ws).outboxEvents.get id = db.outboxEvents.get id := by
  induction h generalizing db with
  | nil => rfl
  | cons hw _ ih =>
      obtain ⟨t, rfl⟩ := hw
      refine (ih (fun e he => hid e (List.mem_cons_of_mem _ he))).trans ?_
      exact get_setPublished_ne (hid _ List.mem_cons_self).symm

/-- Every event is stamped. -/
theorem Stamps.own (h : Stamps events ws) (hnodup : (events.map OutboxEvent.id).Nodup)
    (hrow : ∀ e ∈ events, db.outboxEvents.get e.id = some e) :
    ∀ e ∈ events, ∃ t, (db.applyAll ws).outboxEvents.get e.id = some (e.stamp t) := by
  induction h generalizing db with
  | nil => simp
  | cons hw hrest ih =>
      rename_i e w events ws
      obtain ⟨t, rfl⟩ := hw
      rw [List.map_cons, List.nodup_cons] at hnodup
      have hne : ∀ e' ∈ events, e'.id ≠ e.id := fun e' he' heq =>
        hnodup.1 (heq ▸ List.mem_map_of_mem he')
      intro e' he'
      rcases List.mem_cons.mp he' with rfl | he'
      · refine ⟨t, (Stamps.others hrest hne).trans ?_⟩
        exact get_setPublished.trans (by rw [hrow e' List.mem_cons_self]; rfl)
      · refine ih hnodup.2 (fun d hd => ?_) e' he'
        refine (get_setPublished_ne (hne d hd)).trans ?_
        exact hrow d (List.mem_cons_of_mem _ hd)

/-- Whatever stamps nothing leaves the rows of the outbox as they are. -/
theorem unstamped_applyAll (hws : ∀ w ∈ ws, w.area ≠ .stamp) {id : Uuid} {e : OutboxEvent}
    (h : db.outboxEvents.get id = some e) : (db.applyAll ws).outboxEvents.get id = some e := by
  induction ws generalizing db with
  | nil => exact h
  | cons w ws ih =>
      refine ih (fun x hx => hws x (by simp [hx])) ?_
      cases w with
      | insertEvent x => exact Table.get_insert_of_some h
      | setPublished id' t => exact absurd rfl (hws _ List.mem_cons_self)
      | _ => exact h

end stamps

variable [Runtime]

/-! ## One publisher -/

omit [Runtime] in
/-- Whether a request is an iteration of a publisher. -/
def Request.isPublish : Request → Bool
  | .publish _ _ _ => true
  | _ => false

/-- An iteration that has not ended. -/
def Publishing (w : LedgerWorld) (i : Sid) : Prop :=
  ∃ t q k, w.sess i = some (t, .call q k) ∧ t.isPublish = true

/-- No iteration starts while there is one. -/
def OnePublisher (w : LedgerWorld) : LedgerAction → Prop
  | .spawn t => t.isPublish = true → ∀ i, ¬Publishing w i
  | _ => True

/-- What a single publisher can rely on. -/
structure Lone (w : LedgerWorld) : Prop where
  one : ∀ i j, Publishing w i → Publishing w j → i = j
  /-- Since an iteration started, no other has committed. -/
  since : ∀ i, Publishing w i → ∀ o ∈ w.store.script i, ∀ (n : Nat) (c : LedgerCommit),
    w.store.commits[n]? = some c → o.clock ≤ n → c.tag.isPublish = true → c.sid = i
  /-- Nor has one between two of its statements. -/
  apart : ∀ i, ∀ o ∈ w.store.script i, ∀ o' ∈ w.store.script i, o'.tag.isPublish = true →
    ∀ (n : Nat) (c : LedgerCommit), w.store.commits[n]? = some c → o.clock ≤ n → n < o'.clock →
      c.tag.isPublish = true → c.sid = i

/-- An iteration was there before, or has just been started. -/
theorem step_publishing {w₁ w₂ : LedgerWorld} {a : LedgerAction} (hs : system.step w₁ a = some w₂)
    {i : Sid} (h : Publishing w₂ i) :
    Publishing w₁ i ∨ (i = w₁.next ∧ ∃ t, a = .spawn t ∧ t.isPublish = true) := by
  obtain ⟨t, q, k, hp, ht⟩ := h
  -- sessions that do not move stay what they are
  have hsame : w₁.sess i = some (t, .call q k) → Publishing w₁ i := fun hp => ⟨t, q, k, hp, ht⟩
  rcases step_cases hs with ⟨t', rfl, rfl⟩ | ⟨j, inp, t', q', k', r, s', rfl, hsess, hx, rfl⟩
    | ⟨j, inp, t', x, p, rfl, hsess, hag, rfl⟩ | ⟨j, x, rfl, -, rfl⟩ | ⟨x, o, rfl, -, rfl⟩
  · by_cases hi : i = w₁.next
    · subst hi
      simp only [upd_self] at hp
      have htag : t' = t := congrArg Prod.fst (Option.some.inj hp)
      exact .inr ⟨rfl, t', rfl, htag ▸ ht⟩
    · simp only [upd_ne _ _ hi] at hp
      exact .inl (hsame hp)
  · by_cases hi : i = j
    · subst hi
      simp only [upd_self] at hp
      have htag : t' = t := congrArg Prod.fst (Option.some.inj hp)
      exact .inl ⟨t', q', k', hsess, htag ▸ ht⟩
    · simp only [upd_ne _ _ hi] at hp
      exact .inl (hsame hp)
  · by_cases hi : i = j
    · -- an iteration does not loop
      subst hi
      simp only [upd_self] at hp
      cases hp
      cases t with
      | publish producer topic n => exact absurd hag (by simp [system, Request.next])
      | _ => exact absurd ht (by simp [Request.isPublish])
    · simp only [upd_ne _ _ hi] at hp
      exact .inl (hsame hp)
  · by_cases hi : i = j
    · subst hi
      simp only [upd_self] at hp
      exact absurd hp (by simp)
    · simp only [upd_ne _ _ hi] at hp
      exact .inl (hsame hp)
  · exact .inl (hsame hp)

/-- **A single publisher is not disturbed by another.** -/
theorem guided_lone {db₀ : Db} {w : LedgerWorld}
    (h : Guided system OnePublisher (LedgerStore.start db₀) w) : Lone w := by
  induction h with
  | init =>
      refine ⟨fun i j hi => ?_, fun i hi => ?_, fun i o ho => ?_⟩
      · obtain ⟨t, q, k, hp, -⟩ := hi
        exact absurd hp (by simp [World.init])
      · obtain ⟨t, q, k, hp, -⟩ := hi
        exact absurd hp (by simp [World.init])
      · exact absurd ho (by simp [World.init, LedgerStore.start, Store.init, Store.script])
  | tail hg hrule hs ih =>
      rename_i w₁ w₂ a
      have hr := hg.reachable
      have hone : ∀ i j, Publishing w₂ i → Publishing w₂ j → i = j := by
        intro i j hi hj
        rcases step_publishing hs hi with hi | ⟨rfl, t, rfl, ht⟩
        · rcases step_publishing hs hj with hj | ⟨rfl, t, rfl, ht⟩
          · exact ih.one i j hi hj
          · exact absurd hi (hrule ht i)
        · rcases step_publishing hs hj with hj | ⟨rfl, -⟩
          · exact absurd hj (hrule ht j)
          · rfl
      -- a move that executes nothing
      have hidle : w₂.store.commits = w₁.store.commits
          → w₂.store.trace = w₁.store.trace → Lone w₂ := by
        intro hcs htr
        have hscript : ∀ i, w₂.store.script i = w₁.store.script i := fun i => by
          rw [Store.script, htr]
          rfl
        refine ⟨hone, fun i hi o ho n c hc => ?_, fun i o ho o' ho' ht n c hc => ?_⟩
        · rw [hscript] at ho
          rw [hcs] at hc
          rcases step_publishing hs hi with hi | ⟨rfl, -⟩
          · exact ih.since i hi o ho n c hc
          · -- a new iteration has executed nothing yet
            rw [hr.signed.script_nil (Nat.le_refl _)] at ho
            exact absurd ho (by simp)
        · rw [hscript] at ho ho'
          rw [hcs] at hc
          exact ih.apart i o ho o' ho' ht n c hc
      rcases step_cases hs with ⟨t, -, rfl⟩ | ⟨j, inp, t, q, k, r, s', rfl, hsess, hx, rfl⟩
        | ⟨j, inp, t, x, p, -, -, -, rfl⟩ | ⟨j, x, -, -, rfl⟩ | ⟨x, o, -, -, rfl⟩
      · exact hidle rfl rfl
      · obtain ⟨⟨e, -, -, hscript, -⟩, hothers⟩ := exec_trail hx
        obtain ⟨l, hl, -, hnew⟩ := exec_history hx
        have hmoving : t.isPublish = true → Publishing w₁ j := fun ht => ⟨t, q, k, hsess, ht⟩
        -- a commit is an old one, or this session's
        have hsplit : ∀ (n : Nat) (c : LedgerCommit), s'.commits[n]? = some c →
            w₁.store.commits[n]? = some c
              ∨ (c.sid = j ∧ c.tag = t ∧ w₁.store.commits.length ≤ n) := by
          intro n c hc
          rw [hl] at hc
          by_cases hn : n < w₁.store.commits.length
          · rw [List.getElem?_append_left hn] at hc
            exact .inl hc
          · rw [List.getElem?_append_right (Nat.not_lt.mp hn)] at hc
            obtain ⟨hsid, htag⟩ := hnew c (List.mem_of_getElem? hc)
            exact .inr ⟨hsid, htag, Nat.not_lt.mp hn⟩
        refine ⟨hone, fun i hi o ho n c hc hle ht => ?_, fun i o ho o' ho' ht n c hc
          hle hlt htag => ?_⟩
        · have hpub : Publishing w₁ i := by
            rcases step_publishing hs hi with hi | ⟨-, t', he, -⟩
            · exact hi
            · exact absurd he (by simp)
          have ho : o ∈ s'.script i := ho
          rcases hsplit n c hc with hold | ⟨hsid, htag, -⟩
          · by_cases hij : i = j
            · subst hij
              rw [hscript, List.mem_append, List.mem_singleton] at ho
              rcases ho with ho | rfl
              · exact ih.since i hpub o ho n c hold hle ht
              · -- the statement has just been executed
                have hn : n < w₁.store.commits.length := (List.getElem?_eq_some_iff.mp hold).1
                exact absurd hn (Nat.not_lt.mpr hle)
            · rw [(hothers i hij).1] at ho
              exact ih.since i hpub o ho n c hold hle ht
          · rw [hsid]
            exact ih.one j i (hmoving (htag ▸ ht)) hpub
        · have ho : o ∈ s'.script i := ho
          have ho' : o' ∈ s'.script i := ho'
          have hbound : ∀ d ∈ w₁.store.script i, d.clock ≤ w₁.store.commits.length :=
            fun d hd => (hr.past.2 d (mem_script.mp hd).1).1
          by_cases hij : i = j
          · subst hij
            rw [hscript, List.mem_append, List.mem_singleton] at ho ho'
            have hlast : o'.clock ≤ w₁.store.commits.length := by
              rcases ho' with ho' | rfl
              · exact hbound o' ho'
              · exact Nat.le_refl _
            have hn : n < w₁.store.commits.length := Nat.lt_of_lt_of_le hlt hlast
            have hc : w₁.store.commits[n]? = some c := by
              rcases hsplit n c hc with hc | ⟨-, -, hge⟩
              · exact hc
              · omega
            have ho : o ∈ w₁.store.script i := by
              rcases ho with ho | rfl
              · exact ho
              · exact absurd hn (Nat.not_lt.mpr hle)
            rcases ho' with ho' | rfl
            · exact ih.apart i o ho o' ho' ht n c hc hle hlt htag
            · exact ih.since i (hmoving ht) o ho n c hc hle htag
          · rw [(hothers i hij).1] at ho ho'
            rcases hsplit n c hc with hc | ⟨-, -, hge⟩
            · exact ih.apart i o ho o' ho' ht n c hc hle hlt htag
            · have := hbound o' ho'
              omega
      · exact hidle rfl rfl
      · exact hidle rfl rfl
      · exact hidle rfl rfl

/-! ## All or nothing -/

section iteration

variable {db₀ : Db} {w : LedgerWorld} {i : Sid} {producer limit : Nat} {topic : String} {n : Nat}
  {c : LedgerCommit}

/-- What a commit of an iteration comes after, and what comes after it. -/
theorem committed_iteration (h : ReachableFrom db₀ w)
    (hi : ∀ o ∈ w.store.script i, o.tag = .publish producer topic limit)
    (hc : w.store.commits[n]? = some c) (hsid : c.sid = i) :
    c.tag = .publish producer topic limit ∧ ∃ (os : List LedgerObs) (d : LedgerObs)
      (os' : List LedgerObs),
      w.store.script i = os ++ d :: os' ∧ d.stmt = .commit ∧ d.clock = n
        ∧ Through producer topic limit os c.writes ∧ ∀ o ∈ os', o.stmt = .rollback
          ∨ o.stmt = .close := by
  subst hsid
  have htag : c.tag = .publish producer topic limit := by
    obtain ⟨pre, d, post, hsplit, hd, ht, -⟩ := commit_marked h hc
    rw [← ht]
    exact hi d (mem_script.mpr ⟨by rw [hsplit]; simp, hd⟩)
  refine ⟨htag, ?_⟩
  obtain ⟨os, d, os', K, e, hsplit, hclock, -, htrail, hrun, hctl⟩ :=
    h.committed hc (by rw [htag]; rfl)
  obtain ⟨p, ws, hwalk⟩ := h.walked hi rfl
  rw [htag] at htrail
  obtain ⟨sid, tag, stmt, inp, db, aux, ok, clock⟩ := d
  have hstmt : stmt = .commit := (run_within hrun).commit hctl
  subst hstmt
  rw [hsplit] at hwalk
  exact ⟨os, _, os', hsplit, rfl, hclock, iteration_committing htrail,
    hwalk.after_seal iteration_seals rfl⟩

/-- An iteration commits once. -/
theorem iteration_once (h : ReachableFrom db₀ w)
    (hi : ∀ o ∈ w.store.script i, o.tag = .publish producer topic limit)
    (hc : w.store.commits[n]? = some c) (hsid : c.sid = i) {m : Nat} {c' : LedgerCommit}
    (hc' : w.store.commits[m]? = some c') (hsid' : c'.sid = i) : m = n := by
  obtain ⟨-, os, d, os', hsplit, hd, hclock, -, hafter⟩ := committed_iteration h hi hc hsid
  obtain ⟨-, os₂, d₂, os₂', hsplit₂, hd₂, hclock₂, -, hafter₂⟩ := committed_iteration h hi hc' hsid'
  by_cases hmem : d₂ ∈ d :: os'
  · rcases List.mem_cons.mp hmem with rfl | hlater
    · exact hclock₂.symm.trans hclock
    · have := hafter d₂ hlater
      rw [hd₂] at this
      exact absurd this (by simp)
  · have := hafter₂ d (mem_of_split (hsplit.symm.trans hsplit₂) hmem)
    rw [hd] at this
    exact absurd this (by simp)

/-- Commit number `n` of a run has published whatever iteration `i` has fetched. -/
structure Publishes (db₀ : Db) (w : LedgerWorld) (i : Sid) (producer n : Nat) : Prop where
  commit : ∃ c, w.store.commits[n]? = some c ∧ c.sid = i
  /-- Nothing else has been committed by the iteration. -/
  once : ∀ (m : Nat) (c : LedgerCommit), w.store.commits[m]? = some c → c.sid = i → m = n
  /-- Every event was handed over by a call that returned. -/
  handed : ∀ e ∈ fetched (w.store.script i), ∃ o ∈ w.store.script i, ∃ msg : Message,
    o.stmt = .produce producer msg ∧ o.ok = true ∧ Carries e msg
  clean : ∀ o ∈ w.store.script i, ¬Spoiled o
  /-- Until the commit the rows were as they had been fetched. -/
  unpublished : ∀ e ∈ fetched (w.store.script i),
    (w.store.past engine db₀ n).outboxEvents.get e.id = some e ∧ e.publishedAt = none
  stamped : ∀ e ∈ fetched (w.store.script i),
    ∃ t, (w.store.past engine db₀ (n + 1)).outboxEvents.get e.id = some (e.stamp t)
  others : ∀ id, (∀ e ∈ fetched (w.store.script i), e.id ≠ id) →
    (w.store.past engine db₀ (n + 1)).outboxEvents.get id
      = (w.store.past engine db₀ n).outboxEvents.get id
  kept : ∀ id e, (w.store.past engine db₀ n).outboxEvents.get id = some e → e.publishedAt ≠ none →
    (w.store.past engine db₀ (n + 1)).outboxEvents.get id = some e

/-- **An iteration of a single publisher publishes all it has fetched, in one commit, or changes
nothing**, wherever it is left: at a call of the producer, at a statement, at its commit, or by a
crash. -/
theorem guided_allOrNothing (db₀ : Db) (w : LedgerWorld)
    (h : Guided system OnePublisher (LedgerStore.start db₀) w) (i : Sid) (producer limit : Nat)
    (topic : String) (hi : ∀ o ∈ w.store.script i, o.tag = .publish producer topic limit) :
    (∀ c ∈ w.store.commits, c.sid ≠ i) ∨ ∃ n, Publishes db₀ w i producer n := by
  by_cases hnone : ∀ c ∈ w.store.commits, c.sid ≠ i
  · exact .inl hnone
  obtain ⟨c, hmem, hsid⟩ : ∃ c ∈ w.store.commits, c.sid = i := by simpa using hnone
  obtain ⟨n, hc⟩ := List.getElem?_of_mem hmem
  have hr := h.reachable
  have hlone := guided_lone h
  obtain ⟨htag, os, d, os', hsplit, hd, hclock, hthrough, hafter⟩ :=
    committed_iteration hr hi hc hsid
  have honce : ∀ (m : Nat) (c' : LedgerCommit), w.store.commits[m]? = some c'
      → c'.sid = i → m = n :=
    fun _ _ hc' hsid' => iteration_once hr hi hc hsid hc' hsid'
  have hlast : ∀ o ∈ d :: os', o.stmt.area = .plain ∧ ∀ n, o.stmt ≠ .selectUnpublished n := by
    intro o ho
    rcases List.mem_cons.mp ho with rfl | ho
    · rw [hd]
      simp [Stmt.area]
    · rcases hafter o ho with hq | hq <;> rw [hq] <;> simp [Stmt.area]
  have hfetched : fetched (w.store.script i) = fetched os := by
    have hnil : fetched (d :: os') = [] := fetched_nil (fun o ho => (hlast o ho).2)
    unfold fetched at hnil ⊢
    rw [hsplit, List.flatMap_append, hnil, List.append_nil]
  obtain ⟨o, ho, hstmt, hbatch, hrows⟩ := hthrough.poll
  have hos : ∀ o ∈ os, o ∈ w.store.script i := fun o ho => by
    rw [hsplit]
    exact List.mem_append_left _ ho
  obtain ⟨hnodup, hopen⟩ := isBatch_rows hbatch
  rw [← hrows] at hnodup hopen
  have hle : o.clock ≤ n := by
    have hclocks := hr.clocks.sublist (List.filter_sublist (p := fun o => decide (o.sid = i)))
    have hsplit' : w.store.trace.filter (fun o => decide (o.sid = i)) = os ++ d :: os' := hsplit
    rw [hsplit', List.pairwise_append] at hclocks
    rw [← hclock]
    exact hclocks.2.2 o ho d (by simp)
  -- nobody stamps anything between the poll and the commit
  have hstill : ∀ k, o.clock ≤ k → k ≤ n → ∀ e ∈ fetched os,
      (w.store.past engine db₀ k).outboxEvents.get e.id = some e := by
    intro k hk
    induction k, hk using Nat.le_induction with
    | base =>
        intro _ e he
        have hseen : o.db = w.store.past engine db₀ o.clock :=
          (hr.past.2 o (mem_script.mp (hos o ho)).1).2
        rw [← hseen]
        exact (hopen e he).1
    | succ k hk ih =>
        intro hkn e he
        have hlt : k < w.store.commits.length := by
          have := (List.getElem?_eq_some_iff.mp hc).1
          omega
        have hck := List.getElem?_eq_getElem hlt
        rw [past_succ hck]
        refine unstamped_applyAll (fun x hx => ?_) (ih (by omega) e he)
        have hne : ∀ p tp l, (w.store.commits[k]).tag ≠ .publish p tp l := by
          intro p tp l ht
          have hown := hlone.apart i o (hos o ho) d (by rw [hsplit]; simp)
            (by rw [hi d (by rw [hsplit]; simp)]; rfl) k _ hck hk (by omega) (by rw [ht]; rfl)
          have := honce k _ hck hown
          omega
        exact (Request.areas_bystander hne
          ((reachable_areas hr).2 _ (List.mem_of_getElem? hck) x hx)).1
  have hnow := hstill n hle (Nat.le_refl n)
  have hothers : ∀ id, (∀ e ∈ fetched os, e.id ≠ id) →
      (w.store.past engine db₀ (n + 1)).outboxEvents.get id
        = (w.store.past engine db₀ n).outboxEvents.get id := by
    intro id hid
    rw [past_succ hc]
    exact hthrough.stamps.others hid
  refine .inr ⟨n, ⟨c, hc, hsid⟩, honce, ?_, ?_, ?_, ?_, ?_, ?_⟩
  · rw [hfetched]
    intro e he
    have hsent : (producer, OutboxPublisher.message topic e) ∈ os.filterMap produced := by
      rw [hthrough.handed]
      exact List.mem_map_of_mem he
    obtain ⟨o', ho', hp⟩ := List.mem_filterMap.mp hsent
    obtain ⟨hq, hok⟩ := produced_eq hp
    exact ⟨o', hos o' ho', _, hq, hok, rfl, rfl, rfl⟩
  · intro o' ho'
    rw [hsplit] at ho'
    rcases List.mem_append.mp ho' with ho' | ho'
    · exact hthrough.clean o' ho'
    · exact (bystanding (by rw [(hlast o' ho').1]; simp)).2
  · rw [hfetched]
    exact fun e he => ⟨hnow e he, (hopen e he).2⟩
  · rw [hfetched, past_succ hc]
    exact hthrough.stamps.own hnodup hnow
  · rw [hfetched]
    exact hothers
  · intro id e hget hpub
    refine (hothers id (fun x hx hid => hpub ?_)).trans hget
    -- a fetched row is open
    have hsame := hnow x hx
    rw [hid, hget] at hsame
    rw [Option.some.inj hsame]
    exact (hopen x hx).2

end iteration

/-- Whether session `i` is an iteration that has not ended. -/
def publishing (w : LedgerWorld) (i : Sid) : Bool :=
  match w.sess i with
  | some (t, .call _ _) => t.isPublish
  | _ => false

/-- A test for `OnePublisher`. -/
def publisherOk (w : LedgerWorld) : LedgerAction → Bool
  | .spawn t => !t.isPublish || (List.range w.next).all (fun i => !publishing w i)
  | _ => true

theorem publisherOk_sound {db₀ : Db} {w : LedgerWorld} {a : LedgerAction} (h : ReachableFrom db₀ w)
    (ha : publisherOk w a = true) : OnePublisher w a := by
  cases a with
  | spawn t =>
      rintro ht i ⟨t', q, k, hp, ht'⟩
      have hnone : publishing w i = false := by
        have hall := (Bool.or_eq_true_iff.mp ha).resolve_left (by rw [ht]; simp)
        simpa using List.all_eq_true.mp hall i (List.mem_range.mpr (h.signed.born i _ hp))
      unfold publishing at hnone
      rw [hp] at hnone
      exact absurd (hnone.symm.trans ht') (by simp)
  | _ => trivial

omit [Runtime] in
/-- The iteration of `shipment` publishes its event. -/
theorem shipment_allOrNothing : ∃ (w : LedgerWorld) (n : Nat),
    (Guided (@system plainRuntime) OnePublisher (LedgerStore.start .empty) w
      ∧ (∀ o ∈ w.store.script 5, o.tag = .publish 0 "wallet.transactions" 100)
      ∧ (fetched (w.store.script 5)).map OutboxEvent.id = [58])
    ∧ Publishes .empty w 5 0 n := by
  have hrun : ((@system plainRuntime).guide publisherOk
    (World.init (LedgerStore.start .empty)) shipment).map
      (fun w => (w.store.commits.any (fun c => c.sid == 5),
        (w.store.script 5).all (fun o => decide (o.tag = .publish 0 "wallet.transactions" 100)),
        (fetched (w.store.script 5)).map OutboxEvent.id))
          = some (true, true, [58]) := by decide +kernel
  obtain ⟨w, hw, hv⟩ := Option.map_eq_some_iff.mp hrun
  have hg := Guided.init.guide (fun h ha => @publisherOk_sound plainRuntime _ _ _ h ha) hw
  have htag : ∀ o ∈ w.store.script 5, o.tag = .publish 0 "wallet.transactions" 100 := fun o ho =>
    of_decide_eq_true (List.all_eq_true.mp (congrArg (fun v => v.2.1) hv) o ho)
  rcases @guided_allOrNothing plainRuntime .empty w hg 5 0 100 "wallet.transactions" htag
    with hno | ⟨n, hp⟩
  · obtain ⟨c, hc, hsid⟩ := List.any_eq_true.mp (congrArg Prod.fst hv)
    exact absurd (beq_iff_eq.mp hsid) (hno c hc)
  · exact ⟨w, n, ⟨hg, htag, congrArg (fun v => v.2.2) hv⟩, hp⟩

end WalletLedger
