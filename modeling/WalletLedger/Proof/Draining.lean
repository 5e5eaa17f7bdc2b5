import WalletLedger.Isolation.Deadlock
import WalletLedger.Isolation.Draining
import WalletLedger.Isolation.Sequential
import WalletLedger.Proof.Batches

/-!
# The outbox is drained

A single publisher goes on, iteration after iteration, until one returns zero. The producer
acknowledges everything, no statement fails, and nobody inserts anything.

Each iteration takes a batch of what is open (`isBatch_spec`) and leaves the rest of it open
(`Stamps.leaves`), so the iterations of a run drain the outbox (`Drain`), and what has been
handed over are the batches. An iteration cannot get stuck, and one that finds something open
leaves less of it, so the loop comes to its end.
-/

namespace WalletLedger

open Isolation Prog

/-! ## What is open -/

/-- The events waiting to be published, in the order of the table. -/
def openEvents (db : Db) : List OutboxEvent :=
  db.outboxEvents.rows.filter (fun e => e.publishedAt.isNone)

theorem mem_openEvents {db : Db} {e : OutboxEvent} :
    e ∈ openEvents db ↔ db.outboxEvents.get e.id = some e ∧ e.publishedAt = none := by
  unfold openEvents
  rw [List.mem_filter, Option.isNone_iff_eq_none]
  exact and_congr_left' ⟨Table.get_of_mem, Table.mem_of_get⟩

theorem openEvents_nodup (db : Db) : (openEvents db).Nodup :=
  (List.Nodup.of_map _ db.outboxEvents.nodup).filter _

/-- What is still open when some events have been taken. -/
def without (l events : List OutboxEvent) : List OutboxEvent :=
  l.filter (fun e => !(events.map OutboxEvent.id).contains e.id)

theorem mem_without {l events : List OutboxEvent} {e : OutboxEvent} :
    e ∈ without l events ↔ e ∈ l ∧ ∀ e' ∈ events, e'.id ≠ e.id := by
  simp [without]

/-- One stamp takes one event out of what is open. -/
theorem openEvents_setPublished (db : Db) (id : Uuid) (t : Time) :
    openEvents (db.apply (.setPublished id t))
      = db.outboxEvents.rows.filter (fun e => decide (e.id ≠ id) && e.publishedAt.isNone) := by
  show ((db.outboxEvents.rows.map (fun e => if e.id = id then e.stamp t else e)).filter _) = _
  induction db.outboxEvents.rows with
  | nil => rfl
  | cons e l ih =>
      rw [List.map_cons, List.filter_cons, List.filter_cons, ih]
      by_cases he : e.id = id <;> simp [he, OutboxEvent.stamp]

/-- Stamping takes the stamped events out of what is open. -/
theorem Stamps.leaves {db : Db} {events : List OutboxEvent} {ws : List Write}
    (h : Stamps events ws) :
    openEvents (db.applyAll ws) = without (openEvents db) events := by
  induction h generalizing db with
  | nil => simp [without]
  | @cons e w events ws hw _ ih =>
      obtain ⟨t, rfl⟩ := hw
      show openEvents ((db.apply (.setPublished e.id t)).applyAll ws) = _
      rw [ih, openEvents_setPublished]
      unfold without openEvents
      rw [List.filter_filter, List.filter_filter]
      refine List.filter_congr (fun x _ => ?_)
      by_cases hx : x.id = e.id <;> simp [hx]

/-- **A poll answers with a batch of what is open.** -/
theorem isBatch_spec {db : Db} {limit : Nat} {ids : List Uuid} (h : isBatch db limit ids = true) :
    IsBatch OutboxEvent.createdAt limit (openEvents db) (ids.filterMap db.outboxEvents.get)
      (without (openEvents db) (ids.filterMap db.outboxEvents.get)) := by
  obtain ⟨hnodup, hrows⟩ := isBatch_rows h
  simp only [isBatch, Bool.and_eq_true, decide_eq_true_eq] at h
  obtain ⟨⟨⟨⟨⟨-, hfound⟩, -⟩, hlength⟩, hsorted⟩, hleast⟩ := h
  generalize hev : ids.filterMap db.outboxEvents.get = events at *
  refine ⟨?_, hfound.trans hlength, hsorted, fun e he e' he' => ?_⟩
  · have hpart := List.filter_append_perm (fun e => (events.map OutboxEvent.id).contains e.id)
      (openEvents db)
    refine hpart.symm.trans (List.Perm.append_right _ ?_)
    rw [List.perm_ext_iff_of_nodup ((openEvents_nodup db).filter _) hnodup.of_map]
    intro e
    rw [List.mem_filter, mem_openEvents]
    constructor
    · rintro ⟨⟨hget, -⟩, hc⟩
      obtain ⟨e', he', hid⟩ := List.mem_map.mp (List.contains_iff_mem.mp hc)
      have hsame := (hrows e' he').1
      rw [hid, hget] at hsame
      rw [Option.some.inj hsame]
      exact he'
    · exact fun he => ⟨hrows e he, List.contains_iff_mem.mpr (List.mem_map_of_mem he)⟩
  · obtain ⟨hopen, hleft⟩ := mem_without.mp he'
    rcases Bool.or_eq_true_iff.mp (List.all_eq_true.mp hleast e' hopen) with hin | hall
    · -- it would have been taken
      have hmem : e' ∈ events := by
        rw [← hev]
        exact List.mem_filterMap.mpr ⟨e'.id, of_decide_eq_true hin, (mem_openEvents.mp hopen).1⟩
      exact absurd rfl (hleft e' hmem)
    · exact of_decide_eq_true (List.all_eq_true.mp hall e he)

/-- A batch of what is open is a possible answer. -/
theorem isBatch_of {db : Db} {limit : Nat} {batch rest : List OutboxEvent}
    (h : IsBatch OutboxEvent.createdAt limit (openEvents db) batch rest) :
    isBatch db limit (batch.map OutboxEvent.id) = true := by
  have hopen : ∀ e, e ∈ batch ∨ e ∈ rest ↔ e ∈ openEvents db := fun e =>
    (List.mem_append.symm).trans h.perm.mem_iff.symm
  have hrow : ∀ e ∈ batch, db.outboxEvents.get e.id = some e ∧ e.publishedAt = none := fun e he =>
    mem_openEvents.mp ((hopen e).mp (.inl he))
  have hrows : (batch.map OutboxEvent.id).filterMap db.outboxEvents.get = batch := by
    rw [List.filterMap_map]
    refine (List.filterMap_congr (fun e he => (hrow e he).1)).trans ?_
    simp
  have hnodup : (batch.map OutboxEvent.id).Nodup := by
    have hbatch : batch.Nodup := (h.perm.nodup_iff.mp (openEvents_nodup db)).of_append_left
    refine List.Nodup.map_on (fun e he e' he' hid => ?_) hbatch
    have hsame := (hrow e he).1
    rw [hid, (hrow e' he').1] at hsame
    exact (Option.some.inj hsame).symm
  simp only [isBatch, Bool.and_eq_true, decide_eq_true_eq, hrows]
  refine ⟨⟨⟨⟨⟨hnodup, (List.length_map _).symm⟩, ?_⟩, ?_⟩, h.sorted⟩, ?_⟩
  · exact List.all_eq_true.mpr (fun e he => by simp [(hrow e he).2])
  · rw [List.length_map]
    exact h.length
  · refine List.all_eq_true.mpr (fun e he => Bool.or_eq_true_iff.mpr ?_)
    rcases (hopen e).mpr he with hin | hout
    · exact .inl (decide_eq_true (List.mem_map_of_mem hin))
    · exact .inr (List.all_eq_true.mpr (fun a ha => decide_eq_true (h.least a ha e hout)))

/-! ## An iteration that is not disturbed -/

/-- The server answers, the producer takes every message, and no report is an error. -/
structure Acknowledging (inp : Inp) : Prop where
  fault : inp.fault = none
  kafkaFault : inp.kafkaFault = none
  reports : ∀ r ∈ inp.reports, r.2 = none

theorem Acknowledging.successes {inp : Inp} (h : Acknowledging inp) :
    ∀ x ∈ inp.reports.map Prod.snd, x = none := by
  intro x hx
  obtain ⟨r, hr, rfl⟩ := List.mem_map.mp hx
  exact h.reports r hr

section acknowledged

variable {i : Sid} {t : Request} {ws ws' : List Write} {os : List LedgerObs} {producer limit : Nat}
  {topic : String} {events : List OutboxEvent} {errors : List Nat}

/-- Reports of success leave no mark. -/
theorem onDelivery_success {rs : List (Option Nat)} (h : ∀ r ∈ rs, r = none) :
    OutboxPublisher.onDelivery errors rs = errors := by
  unfold OutboxPublisher.onDelivery
  have hnil : rs.filterMap id = [] := List.filterMap_eq_nil_iff.mpr h
  rw [hnil, List.append_nil]

theorem produce_acknowledged {msg : Message} {r : Except Exn (List (Option Nat))}
    (h : Trail engine i t (query (.produce producer msg)) ws os (ofExcept r) ws')
    (hack : ∀ o ∈ os, Acknowledging o.inp) : ∃ rs, r = .ok rs ∧ ∀ x ∈ rs, x = none := by
  obtain ⟨inp, db, aux, n, eff, rfl, hrun, rfl, -⟩ := h.perform_ended
  have hinp : Acknowledging inp := hack _ (List.mem_singleton_self _)
  have hrun : runProduce inp i aux producer msg = some eff := hrun
  cases hans : eff.ans with
  | ok rs =>
      obtain ⟨-, rfl⟩ := runProduce_sends hrun hans
      exact ⟨_, rfl, hinp.successes⟩
  | error x =>
      exact absurd hinp.kafkaFault (runProduce_error hrun hans).1

theorem flush_acknowledged {r : Except Exn (List (Option Nat) × Nat)}
    (h : Trail engine i t (query (.flush producer)) ws os (ofExcept r) ws')
    (hack : ∀ o ∈ os, Acknowledging o.inp) :
    ∃ flushed, r = .ok flushed ∧ ∀ x ∈ flushed.1, x = none := by
  obtain ⟨inp, db, aux, n, eff, rfl, hrun, rfl, -⟩ := h.perform_ended
  have hinp : Acknowledging inp := hack _ (List.mem_singleton_self _)
  have hrun : runFlush inp i aux producer = some eff := hrun
  cases hans : eff.ans with
  | ok flushed =>
      obtain ⟨-, hrs⟩ := runFlush_sends hrun hans
      exact ⟨_, rfl, by rw [hrs]; exact hinp.successes⟩
  | error x =>
      exact absurd hinp.kafkaFault (runFlush_error hrun hans).1

theorem produceAll_acknowledged {r : Except Exn (List Nat)}
    (h : Trail engine i t (OutboxPublisher.produceAll producer topic events errors) ws os
      (ofExcept r) ws')
    (hack : ∀ o ∈ os, Acknowledging o.inp) : r = .ok errors := by
  induction events generalizing os ws with
  | nil => exact (ofExcept_inj h.ret_inv.2.1)
  | cons e events ih =>
      rcases h.bind_ended with ⟨x, hx, -⟩ | ⟨rs, os₁, os₂, ws₁, rfl, h₁, h₂⟩
      · obtain ⟨rs, hr, -⟩ := produce_acknowledged hx hack
        exact absurd hr (by simp)
      · obtain ⟨rs', hr, hnone⟩ := produce_acknowledged h₁ (fun o ho => hack o (by simp [ho]))
        cases hr
        rw [onDelivery_success hnone] at h₂
        exact ih h₂ (fun o ho => hack o (by simp [ho]))

/-- Every stamp finds its row. -/
theorem markAll_acknowledged {r : Except Exn Unit}
    (h : Trail engine i t (OutboxPublisher.markAll events) ws os (ofExcept r) ws')
    (hack : ∀ o ∈ os, Acknowledging o.inp)
    (hrow : ∀ o ∈ os, ∀ e ∈ events, (o.db.outboxEvents.get e.id).isSome = true) : r = .ok () := by
  induction events generalizing os ws with
  | nil => exact (ofExcept_inj h.ret_inv.2.1)
  | cons e events ih =>
      rcases h.bind_ended with ⟨x, hx, -⟩ | ⟨e', os₁, os₂, ws₁, rfl, h₁, h₂⟩
      · rcases markPublished_ended hx with ⟨now, hr, -⟩ | ⟨-, o, ho, hgone⟩
        · exact absurd hr (by simp)
        · -- the row was there, and is still there after the stamps before it
          obtain ⟨e₀, he₀⟩ := Option.isSome_iff_exists.mp (hrow o ho e (by simp))
          obtain ⟨e₁, he₁, -⟩ := (Db.Grows.applyAll o.db ws).events e.id e₀ he₀
          have he₁ : (o.db.applyAll ws).outboxEvents.get e.id = some e₁ := he₁
          have hnone := hgone (hack o ho).fault
          rw [he₁] at hnone
          exact absurd hnone (by simp)
      · exact ih h₂ (fun o ho => hack o (by simp [ho]))
          (fun o ho e' he' => hrow o (by simp [ho]) e' (by simp [he']))

/-- A batch comes to its end. -/
theorem publishBatch_acknowledged {r : Except Exn Nat}
    (h : Trail engine i t (OutboxPublisher.publishBatch producer topic limit) [] os
      (ofExcept r) ws')
    (hack : ∀ o ∈ os, Acknowledging o.inp) (hgrow : os.Pairwise (fun o o' => o.db.Grows o'.db)) :
    ∃ m, r = .ok m := by
  rcases h.bind_ended with ⟨x, hx, -⟩ | ⟨events, os₁, os₂, ws₁, rfl, h₁, h₂⟩
  · obtain ⟨inp, db, aux, n, eff, rfl, hrun, hans, -⟩ := hx.perform_ended
    have hrun : run (.selectUnpublished limit) inp i db aux = some eff := hrun
    rw [run] at hrun
    split at hrun
    · cases hrun
      have hinp : Acknowledging inp := hack _ (List.mem_singleton_self _)
      exact absurd hans (by simp [reads, hinp.fault])
    · exact absurd hrun (by simp)
  obtain ⟨o, rfl, -, hbatch, rfl, -, -⟩ := fetch_ok h₁
  have hlater : ∀ o' ∈ os₂, Acknowledging o'.inp := fun o' ho' => hack o' (by simp [ho'])
  have hrow : ∀ o' ∈ os₂, ∀ e ∈ o.inp.batch.filterMap o.db.outboxEvents.get,
      (o'.db.outboxEvents.get e.id).isSome = true := by
    intro o' ho' e he
    have hget := ((isBatch_rows hbatch).2 e he).1
    obtain ⟨e', he', -⟩ := ((List.pairwise_cons.mp hgrow).1 o' ho').events e.id e hget
    rw [he']
    rfl
  dsimp only at h₂
  split at h₂
  · exact ⟨_, ofExcept_inj h₂.ret_inv.2.1⟩
  rcases h₂.bind_ended with ⟨x, hx, -⟩ | ⟨errors, os₃, os₄, ws₂, rfl, h₃, h₄⟩
  · exact absurd (produceAll_acknowledged hx hlater) (by simp)
  -- no report was an error, so nothing has been collected when the batch is flushed
  cases produceAll_acknowledged h₃ (fun o' ho' => hlater o' (by simp [ho']))
  rcases h₄.bind_ended with ⟨x, hx, -⟩ | ⟨flushed, os₅, os₆, ws₃, rfl, h₅, h₆⟩
  · obtain ⟨_, hr, -⟩ := flush_acknowledged hx (fun o' ho' => hlater o' (by simp [ho']))
    exact absurd hr (by simp)
  obtain ⟨_, hr, hnone⟩ := flush_acknowledged h₅ (fun o' ho' => hlater o' (by simp [ho']))
  cases hr
  rcases raiseIf_ended h₆ with ⟨herr, -⟩ | ⟨-, h₇⟩
  · exact absurd (onDelivery_success hnone) herr
  -- rows are never deleted, so each stamp finds the row that was polled
  rcases h₇.bind_ended with ⟨x, hx, -⟩ | ⟨u, os₇, os₈, ws₄, rfl, -, h₉⟩
  · have hr := markAll_acknowledged hx (fun o' ho' => hlater o' (by simp [ho']))
      (fun o' ho' => hrow o' (by simp [ho']))
    exact absurd hr (by simp)
  · exact ⟨_, ofExcept_inj h₉.ret_inv.2.1⟩

/-- **An iteration that is not disturbed commits a batch, and returns its length.** -/
theorem iteration_acknowledged {r : Except Exn Reply} (h : Trail engine i t
      (Reply.published <$> OutboxPublisher.iteration producer topic limit) [] os (ofExcept r) ws')
    (hack : ∀ o ∈ os, Acknowledging o.inp) (hgrow : os.Pairwise (fun o o' => o.db.Grows o'.db)) :
    ∃ (os₁ : List LedgerObs) (ws₁ : List Write) (d e : LedgerObs), os = os₁ ++ [d, e]
      ∧ d.stmt = .commit
      ∧ e.stmt = .close ∧ Through producer topic limit os₁ ws₁
      ∧ r = .ok (.published (fetched os₁).length) := by
  obtain ⟨r', hiter, rfl⟩ := h.map_ended
  unfold OutboxPublisher.iteration at hiter
  dsimp only at hiter
  rw [attempt_bind] at hiter
  obtain ⟨r₁, os₁, os₂, ws₁, rfl, h₁, h₂⟩ := hiter.handle_ended
  rcases h₁.bind_ended with ⟨x, hx, -⟩ | ⟨m, os₃, os₄, ws₂, rfl, h₃, h₄⟩
  · obtain ⟨_, hr⟩ := publishBatch_acknowledged hx (fun o ho => hack o (by simp [ho]))
      (List.pairwise_append.mp hgrow).1
    exact absurd hr (by simp)
  obtain ⟨rfl, hthrough⟩ := publishBatch_ok h₃
  rcases h₄.bind_ended with ⟨x, hx, -⟩ | ⟨u, os₅, os₆, ws₃, rfl, h₅, h₆⟩
  · obtain ⟨d, rfl, -, -, ⟨f, hf, -⟩ | ⟨-, hr⟩⟩ := sealing_ended hx
    · rw [(hack d (by simp)).fault] at hf
      exact absurd hf (by simp)
    · exact absurd hr (by simp)
  -- the commit has gone through, and only `close` is left
  obtain ⟨d, rfl, hd, -, -⟩ := sealing_ended h₅
  obtain ⟨rfl, hr, -⟩ := h₆.ret_inv
  have hr₁ : r₁ = .ok (fetched os₃).length := ofExcept_inj hr
  subst hr₁
  rcases h₂.bind_ended with ⟨x, hx, -⟩ | ⟨u', os₇, os₈, ws₄, rfl, h₇, h₈⟩
  · obtain ⟨inp, db, aux, n, eff, -, hrun, hans, -⟩ := hx.perform_ended
    cases hrun
    exact absurd hans (by simp)
  obtain ⟨inp, db, aux, n, eff, rfl, -, -, -⟩ := h₇.perform_ended
  obtain ⟨rfl, hr, -⟩ := h₈.ret_inv
  have hr' : r' = .ok (fetched os₃).length := ofExcept_inj hr
  subst hr'
  exact ⟨os₃, ws₂, d, ⟨i, t, .close, inp, db, aux, eff.ans.isOk,
    n⟩, by simp, hd, rfl, hthrough, rfl⟩

/-! ## How long an iteration is -/

theorem produceAll_atMost :
    (OutboxPublisher.produceAll producer topic events errors).AtMost events.length := by
  induction events generalizing errors with
  | nil => trivial
  | cons e events ih => exact .step (fun _ => ih)

theorem markAll_atMost : (OutboxPublisher.markAll events).AtMost (2 * events.length) := by
  induction events with
  | nil => trivial
  | cons e events ih =>
      have hmark : (OutboxRepository.markPublished e).AtMost 2 :=
        .step (fun _ => .step (fun _ => trivial))
      refine AtMost.mono (hmark.bind (fun _ => ih)) ?_
      rw [List.length_cons]
      omega

/-- A batch takes three statements for every event, besides the poll and the flush. -/
theorem publishBatch_length {r : Except Exn Nat}
    (h : Trail engine i t (OutboxPublisher.publishBatch producer topic limit) [] os
      (ofExcept r) ws') :
    os.length ≤ 3 * (fetched os).length + 2 := by
  rcases h.bind_ended with ⟨x, hx, -⟩ | ⟨events, os₁, os₂, ws₁, rfl, h₁, h₂⟩
  · obtain ⟨inp, db, aux, n, eff, rfl, -⟩ := hx.perform_ended
    rw [List.length_singleton]
    omega
  obtain ⟨o, rfl, -, -, -, hpoll, -⟩ := fetch_ok h₁
  have hrest : os₂.length ≤ 3 * events.length + 1 := by
    refine h₂.length_le ?_
    dsimp only
    split
    · trivial
    · refine AtMost.mono (produceAll_atMost.bind (fun _ => .step (fun _ =>
        (AtMost.raiseIf _ _).bind (fun _ => markAll_atMost.bind (n := 0) (fun _ => trivial))))) ?_
      omega
  have hfetched : fetched ([o] ++ os₂) = events ++ fetched os₂ := by simp [fetched, hpoll]
  rw [hfetched, List.length_append, List.length_append, List.length_singleton]
  omega

theorem iteration_length {r : Except Exn Reply} (h : Trail engine i t
      (Reply.published <$> OutboxPublisher.iteration producer topic limit) [] os (ofExcept r) ws') :
    os.length ≤ 3 * (fetched os).length + 5 := by
  obtain ⟨r', hiter, rfl⟩ := h.map_ended
  unfold OutboxPublisher.iteration at hiter
  dsimp only at hiter
  rw [attempt_bind] at hiter
  obtain ⟨r₁, os₁, os₂, ws₁, rfl, h₁, h₂⟩ := hiter.handle_ended
  have hwork : os₁.length ≤ 3 * (fetched os₁).length + 3 := by
    rcases h₁.bind_ended with ⟨x, hx, -⟩ | ⟨m, os₃, os₄, ws₂, rfl, h₃, h₄⟩
    · exact Nat.le_succ_of_le (publishBatch_length hx)
    · have hbatch := publishBatch_length h₃
      have hcommit := h₄.length_le (.step (n := 0) (fun _ => trivial))
      have hfetched : fetched (os₃ ++ os₄) = fetched os₃ ++ fetched os₄ := List.flatMap_append
      rw [hfetched, List.length_append, List.length_append]
      omega
  have hend : os₂.length ≤ 2 := by
    refine h₂.length_le ?_
    cases r₁ with
    | ok m => exact .step (fun _ => trivial)
    | error x => exact .step (fun _ => .step (fun _ => trivial))
  have hfetched : fetched (os₁ ++ os₂) = fetched os₁ ++ fetched os₂ := List.flatMap_append
  rw [hfetched, List.length_append, List.length_append]
  omega

end acknowledged

/-- Whatever the server and the broker are asked, they can answer without an error. -/
theorem run_total (q : Stmt) (i : Sid) (db : Db) (o : Outside) :
    ∃ inp e, Acknowledging inp ∧ run q inp i db o = some e := by
  have hquiet : ∀ ids : List Uuid, Acknowledging { batch := ids } := fun _ =>
    ⟨rfl, rfl, fun _ hr => absurd hr List.not_mem_nil⟩
  cases q with
  | selectUnpublished limit =>
      obtain ⟨batch, rest, h⟩ := exists_isBatch OutboxEvent.createdAt limit (openEvents db)
      have hrun : ∀ inp : Inp, isBatch db limit inp.batch = true →
          run (.selectUnpublished limit) inp i db o
            = some (reads inp o (inp.batch.filterMap db.outboxEvents.get)) := fun _ hb => if_pos hb
      exact ⟨_, _, hquiet _, hrun _ (isBatch_of h)⟩
  | _ => exact ⟨{ batch := [] }, _, hquiet [], rfl⟩

variable [Runtime]

theorem reachable_growing {db₀ : Db} {w : LedgerWorld} (h : ReachableFrom db₀ w) (i : Sid) :
    (w.store.script i).Pairwise (fun o o' => o.db.Grows o'.db) := by
  have hclocks : (w.store.script i).Pairwise (fun o o' => o.clock ≤ o'.clock) :=
    h.clocks.sublist List.filter_sublist
  refine hclocks.imp_of_mem (fun {o o'} ho ho' hle => ?_)
  have hdb : o.db = w.store.past engine db₀ o.clock := (h.past.2 o (mem_script.mp ho).1).2
  have hdb' : o'.db = w.store.past engine db₀ o'.clock := (h.past.2 o' (mem_script.mp ho').1).2
  rw [hdb, hdb']
  exact past_grows hle

/-! ## The loop -/

/-- How many events iteration `i` has published, if it has returned. -/
def returned (w : LedgerWorld) (i : Sid) : Option Nat :=
  match ended w i with
  | some (_, .ok (.published n)) => some n
  | _ => none

/-- An iteration has returned zero. -/
def Stopped (w : LedgerWorld) : Prop := ∃ i, returned w i = some 0

/-- The moves of a loop: iterations of one publisher, one after the other until one returns zero,
with nobody else, no failure, and a producer that acknowledges everything. -/
def Looping (producer : Nat) (topic : String) (b : Nat) (w : LedgerWorld) : LedgerAction → Prop
  | .spawn t => t = .publish producer topic b ∧ (∀ i < w.next, Finished system w i) ∧ ¬Stopped w
  | .exec _ inp => Acknowledging inp
  | .crash _ => False
  | .env _ => True

/-- The worlds a loop leads to. -/
abbrev Loop (db₀ : Db) (producer : Nat) (topic : String) (b : Nat) (w : LedgerWorld) : Prop :=
  Guided system (Looping producer topic b) (LedgerStore.start db₀) w

/-- Whether session `i` has executed its commit. -/
def hasCommitted (w : LedgerWorld) (i : Sid) : Bool :=
  (w.store.script i).any (fun o => decide (o.stmt = .commit))

/-- The batches published so far. -/
def batches (w : LedgerWorld) : List (List OutboxEvent) :=
  ((List.range w.next).filter (hasCommitted w)).map (fun i => fetched (w.store.script i))

/-- The invariant of the loop. -/
structure Loops (db₀ : Db) (producer : Nat) (topic : String) (b : Nat)
    (w : LedgerWorld) : Prop where
  tags : ∀ i < w.next, ∃ p, w.sess i = some (.publish producer topic b, p)
  acknowledged : ∀ o ∈ w.store.trace, Acknowledging o.inp
  /-- Who holds a lock has something to do. -/
  free : ∀ l ∈ w.store.locks, ∃ t q k, w.sess l.2 = some (t, .call q k)
  going : ∀ i, i + 1 < w.next → returned w i ≠ some 0
  drain : Drain OutboxEvent.createdAt b (openEvents db₀) (batches w) (openEvents w.store.db)

section loop

variable {db₀ : Db} {producer b : Nat} {topic : String} {w : LedgerWorld}

/-- A loop runs one iteration at a time. -/
theorem loop_oneAtATime (h : Loop db₀ producer topic b w) :
    Guided system (OneAtATime system) (LedgerStore.start db₀) w := by
  refine h.mono (fun w a hrule => ?_)
  cases a with
  | spawn t =>
      obtain ⟨rfl, hdone, -⟩ := hrule
      exact ⟨rfl, hdone⟩
  | exec i inp => trivial
  | crash i => exact hrule
  | env x => trivial

omit [Runtime] in
/-- Sessions that look the same have published the same. -/
theorem batches_congr {w' : LedgerWorld} (hnext : w'.next = w.next)
    (hsame : ∀ i < w.next, hasCommitted w' i = hasCommitted w i
      ∧ (hasCommitted w i = true → fetched (w'.store.script i) = fetched (w.store.script i))) :
    batches w' = batches w := by
  unfold batches
  rw [hnext, List.filter_congr (fun i hi => (hsame i (List.mem_range.mp hi)).1)]
  refine List.map_congr_left (fun i hi => ?_)
  obtain ⟨hlt, hc⟩ := List.mem_filter.mp hi
  exact (hsame i (List.mem_range.mp hlt)).2 hc

omit [Runtime] in
/-- Executing its commit adds the batch of the last session. -/
theorem batches_commit {w' : LedgerWorld} {i : Sid} {o : LedgerObs} (hlast : w.next = i + 1)
    (hold : ∀ j, j ≠ i → w'.store.script j = w.store.script j)
    (hscript : w'.store.script i = w.store.script i ++ [o]) (ho : o.stmt = .commit)
    (hnone : ¬∃ d ∈ w.store.script i, d.stmt = .commit) (hnext : w'.next = w.next) :
    batches w' = batches w ++ [fetched (w.store.script i)] := by
  have hbefore : hasCommitted w i = false := by
    unfold hasCommitted
    rw [List.any_eq_false]
    exact fun d hd hc => hnone ⟨d, hd, of_decide_eq_true hc⟩
  have hafter : hasCommitted w' i = true := by
    unfold hasCommitted
    rw [hscript]
    simp [ho]
  have hpoll : fetched (w'.store.script i) = fetched (w.store.script i) := by
    rw [hscript]
    simp [fetched, polled, ho]
  have hrange : ∀ j ∈ List.range i, w'.store.script j = w.store.script j :=
    fun j hj => hold j (Nat.ne_of_lt (List.mem_range.mp hj))
  have hfirst : ((List.range i).filter (hasCommitted w')).map (fun j => fetched (w'.store.script j))
      = ((List.range i).filter (hasCommitted w)).map (fun j => fetched (w.store.script j)) := by
    rw [List.filter_congr (fun j hj => by unfold hasCommitted; rw [hrange j hj])]
    exact List.map_congr_left (fun j hj => by rw [hrange j (List.mem_of_mem_filter hj)])
  unfold batches
  rw [hnext, hlast, List.range_succ, List.filter_append, List.filter_append, List.map_append,
    List.map_append, hfirst]
  simp [hbefore, hafter, hpoll]

omit [Runtime] in
/-- Executing anything else adds nothing. -/
theorem batches_quiet {w' : LedgerWorld} {i : Sid} {o : LedgerObs}
    (hold : ∀ j, j ≠ i → w'.store.script j = w.store.script j)
    (hscript : w'.store.script i = w.store.script i ++ [o]) (ho : o.stmt ≠ .commit)
    (hpoll : (∃ d ∈ w.store.script i, d.stmt = .commit) → polled o = [])
    (hnext : w'.next = w.next) :
    batches w' = batches w := by
  refine batches_congr hnext (fun j _ => ?_)
  unfold hasCommitted
  by_cases hj : j = i
  · subst hj
    rw [hscript]
    refine ⟨by simp [ho], fun hc => ?_⟩
    obtain ⟨d, hd, hcommit⟩ := List.any_eq_true.mp hc
    simp [fetched, hpoll ⟨d, hd, of_decide_eq_true hcommit⟩]
  · rw [hold j hj]
    exact ⟨rfl, fun _ => rfl⟩

omit [Runtime] in
/-- An iteration that has executed its commit only has to close. -/
theorem iteration_closing {i : Sid} {q : Stmt} {k : Except Exn q.Ans → Tx Reply} {ws : List Write}
    {os : List LedgerObs} {t : Request} (h : Trail engine i t
      (Reply.published <$> OutboxPublisher.iteration producer topic b) [] os (.call q k) ws)
    (hc : ∃ o ∈ os, o.stmt = .commit) : q = .rollback ∨ q = .close :=
  (h.seals iteration_seals hc).1

/-- **A commit takes a batch out of what is open**: nothing has been committed since its poll. -/
theorem committing_isBatch (h : Loop db₀ producer topic b w) {i : Sid}
    {k : Except Exn Unit → Tx Reply}
    (hsess : w.sess i = some (.publish producer topic b, .call .commit k))
    (hlast : w.next = i + 1) :
    IsBatch OutboxEvent.createdAt b (openEvents w.store.db) (fetched (w.store.script i))
      (openEvents (w.store.db.applyAll (w.store.pending i))) := by
  have hr := h.reachable
  have htrail := hr.trail.2 i _ _ hsess rfl
  obtain ⟨⟨o, ho, -, hbatch, hrows⟩, -, -, hstamps⟩ := iteration_committing htrail
  have hnone : ∀ d ∈ w.store.script i, d.stmt ≠ .commit := by
    intro d hd hc
    rcases iteration_closing htrail ⟨d, hd, hc⟩ with hq | hq
    · exact absurd hq (by simp)
    · exact absurd hq (by simp)
  have hmem := (mem_script.mp ho).1
  have hclock : o.clock = w.store.commits.length := by
    refine Nat.le_antisymm (hr.past.2 o hmem).1 (Nat.not_lt.mp (fun hlt => ?_))
    -- a commit since the poll would be the session's own
    have hc := List.getElem?_eq_getElem hlt
    have hge := (loop_oneAtATime h).sequential.commits o hmem _ _ hc (Nat.le_refl _)
    have hlt' := hr.signed.commits _ (List.mem_of_getElem? hc)
    rw [(mem_script.mp ho).2] at hge
    rw [hlast] at hlt'
    have hsid : (w.store.commits[o.clock]).sid = i := Nat.le_antisymm (Nat.le_of_lt_succ hlt') hge
    obtain ⟨d, hd, hcommit⟩ := commit_script hr _ (List.mem_of_getElem? hc)
    rw [hsid] at hd
    exact hnone d hd hcommit
  have hdb : o.db = w.store.db := by
    rw [(hr.past.2 o hmem).2, hclock]
    exact hr.past.1.symm
  rw [hstamps.leaves, hrows, hdb]
  rw [hdb] at hbatch
  exact isBatch_spec hbatch

omit [Runtime] in
/-- A closed session holds no lock. -/
theorem close_unlocks {i : Sid} {t : Request} {inp : Inp} {r : Except Exn Unit} {s s' : LedgerStore}
    (hx : exec engine i t .close inp s = some (r, s')) (x : Res) : (x, i) ∉ s'.locks := by
  obtain ⟨e, he, -, -, hout⟩ := exec_outcome hx
  cases he
  cases hout with
  | stay ctl => exact absurd ctl (by simp)
  | commit ctl => exact absurd ctl (by simp)
  | abort _ _ _ idle => exact idle.locks x

/-- A statement of the loop keeps its invariant. -/
theorem Loops.exec (h : Loop db₀ producer topic b w) (hi : Loops db₀ producer topic b w) {i : Sid}
    {inp : Inp} {t : Request} {q : Stmt} {k : Except Exn q.Ans → Tx Reply} {r : Except Exn q.Ans}
    {s' : LedgerStore} (hsess : w.sess i = some (t, .call q k))
    (hx : exec engine i t q inp w.store = some (r, s')) (hinp : Acknowledging inp)
    (hr' : ReachableFrom db₀ ⟨s', upd w.sess i (some (t, k r)), w.next⟩) :
    Loops db₀ producer topic b ⟨s', upd w.sess i (some (t, k r)), w.next⟩ := by
  have hr := h.reachable
  have hseq := (loop_oneAtATime h).sequential
  have hborn : i < w.next := hr.signed.born i _ hsess
  have hlast : w.next = i + 1 :=
    Nat.le_antisymm (Nat.not_lt.mp (fun hlt => (hseq.done i hlt).not_call hsess)) hborn
  obtain ⟨p, hp⟩ := hi.tags i hborn
  have ht : t = .publish producer topic b :=
    congrArg Prod.fst (Option.some.inj (hsess.symm.trans hp))
  subst ht
  have htrail := hr.trail.2 i _ _ hsess rfl
  obtain ⟨⟨e, he, rfl, hscript, -⟩, hothers⟩ := exec_trail hx
  have hsplit : s'.trace = w.store.trace ++ [_] := exec_trace hx
  have hack : ∀ o ∈ s'.trace, Acknowledging o.inp := by
    intro o ho
    rw [hsplit, List.mem_append, List.mem_singleton] at ho
    rcases ho with ho | rfl
    · exact hi.acknowledged o ho
    · exact hinp
  refine ⟨fun j hj => ?_, hack, fun l hl => ?_, fun j hj => ?_, ?_⟩
  · by_cases hji : j = i
    · subst hji
      exact ⟨k e.ans, upd_self _ _ _⟩
    · obtain ⟨p', hp'⟩ := hi.tags j hj
      exact ⟨p', (upd_ne _ _ hji).trans hp'⟩
  · by_cases hl' : l.2 = i
    · subst hl'
      -- an iteration that ends has just closed its session
      have hends : ∀ r', k e.ans ≠ ofExcept r' := by
        intro r' hkr
        have hend := htrail.snoc he w.store.commits.length
        rw [hkr] at hend
        have hgrow : (s'.script l.2).Pairwise (fun o o' => o.db.Grows o'.db) :=
          reachable_growing hr' l.2
        rw [hscript] at hgrow
        obtain ⟨os₁, ws₁, d, c, hos, -, hclose, -, -⟩ := iteration_acknowledged hend
          (fun o ho => hack o (mem_script.mp (hscript ▸ ho)).1) hgrow
        rw [List.append_cons os₁ d [c]] at hos
        obtain ⟨-, hlast'⟩ := List.append_inj' hos rfl
        have hq : q = .close := by
          rw [← hclose, ← List.singleton_inj.mp hlast']
        subst hq
        exact close_unlocks hx l.1 hl
      cases hkr : k e.ans with
      | call q' k' => exact ⟨_, q', k', by rw [← hkr]; exact upd_self _ _ _⟩
      | ret a => exact absurd hkr (hends (.ok a))
      | raise x => exact absurd hkr (hends (.error x))
    · have hold : l ∈ w.store.locks := ((exec_locks (R := Nat) hx).2 l.1 l.2 hl').mp hl
      obtain ⟨t', q', k', hs⟩ := hi.free l hold
      exact ⟨t', q', k', (upd_ne _ _ hl').trans hs⟩
  · have hj : j + 1 < w.next := hj
    have hne : j ≠ i := Nat.ne_of_lt (Nat.lt_of_succ_lt_succ (Nat.lt_of_lt_of_eq hj hlast))
    have hsame : returned ⟨s', upd w.sess i (some (.publish producer topic b, k e.ans)), w.next⟩ j
        = returned w j := by
      unfold returned ended
      simp only [upd_ne _ _ hne]
    rw [hsame]
    exact hi.going j hj
  · have hold : ∀ j, j ≠ i → s'.script j = w.store.script j := fun j hj => (hothers j hj).1
    by_cases hq : q = .commit
    · subst hq
      obtain ⟨-, -, ⟨x, hf, -⟩ | ⟨-, -, hdb, -⟩⟩ := exec_commit hx
      · rw [hinp.fault] at hf
        exact absurd hf (by simp)
      have hbatches : batches ⟨s', upd w.sess i (some (.publish producer topic b, k e.ans)), w.next⟩
          = batches w ++ [fetched (w.store.script i)] := batches_commit hlast hold hscript rfl
        (fun hc => by
          rcases iteration_closing htrail hc with hq | hq
          · exact absurd hq (by simp)
          · exact absurd hq (by simp)) rfl
      show Drain _ _ _ _ (openEvents s'.db)
      rw [hbatches, hdb]
      exact hi.drain.snoc (committing_isBatch h hsess hlast)
    · obtain ⟨-, -, -, -, hdb, -⟩ := exec_quiet hx hq
      have hbatches : batches ⟨s', upd w.sess i (some (.publish producer topic b, k e.ans)), w.next⟩
          = batches w := batches_quiet hold hscript hq (fun hc => by
            rcases iteration_closing htrail hc with hq' | hq'
            · subst hq'; rfl
            · subst hq'; rfl) rfl
      show Drain _ _ _ _ (openEvents s'.db)
      rw [hbatches, hdb]
      exact hi.drain

theorem loop_loops (h : Loop db₀ producer topic b w) : Loops db₀ producer topic b w := by
  induction h with
  | init =>
      refine ⟨fun i hi => ?_, fun o ho => ?_, fun l hl => ?_, fun i hi => ?_, .nil⟩
      · exact absurd hi (Nat.not_lt_zero i)
      · exact absurd ho (by simp [World.init, LedgerStore.start, Store.init])
      · exact absurd hl (by simp [World.init, LedgerStore.start, Store.init])
      · exact absurd hi (Nat.not_lt_zero (i + 1))
  | tail hg hrule hs ih =>
      rename_i w₁ w₂ a
      have hr := hg.reachable
      have hr' := hr.tail hs
      rcases step_cases hs with ⟨t, rfl, rfl⟩ | ⟨i, inp, t, q, k, r, s', rfl, hsess, hx, rfl⟩
        | ⟨i, inp, t, x, p, -, hsess, hag, rfl⟩ | ⟨i, x, rfl, -, rfl⟩ | ⟨x, o, rfl, -, rfl⟩
      · -- it is started only if no iteration has returned zero
        obtain ⟨rfl, -, hgoing⟩ := hrule
        have hsame : ∀ j, j < w₁.next → upd w₁.sess w₁.next
            (some (.publish producer topic b, system.start (.publish producer topic b)))
              j = w₁.sess j :=
          fun j hj => upd_ne _ _ (Nat.ne_of_lt hj)
        refine ⟨fun j hj => ?_, ih.acknowledged, fun l hl => ?_, fun j hj => ?_, ?_⟩
        · rcases Nat.lt_succ_iff_lt_or_eq.mp hj with hj | rfl
          · obtain ⟨p, hp⟩ := ih.tags j hj
            exact ⟨p, (hsame j hj).trans hp⟩
          · exact ⟨_, upd_self _ _ _⟩
        · obtain ⟨t, q, k, hp⟩ := ih.free l hl
          exact ⟨t, q, k, (hsame l.2 (hr.signed.born _ _ hp)).trans hp⟩
        · have hj : j < w₁.next := Nat.lt_of_succ_lt_succ hj
          intro hzero
          refine hgoing ⟨j, ?_⟩
          unfold returned ended at hzero ⊢
          simp only [hsame j hj] at hzero
          exact hzero
        · -- the new session has executed nothing
          have hnew : hasCommitted w₁ w₁.next = false := by
            unfold hasCommitted
            rw [hr.signed.script_nil (Nat.le_refl _)]
            rfl
          have hbatches : ∀ x, batches ⟨w₁.store, x, w₁.next + 1⟩ = batches w₁ := by
            intro x
            show ((List.range (w₁.next + 1)).filter (hasCommitted w₁)).map _ = _
            rw [List.range_succ, List.filter_append]
            simp [hnew, batches]
          rw [hbatches]
          exact ih.drain
      · exact ih.exec hg hsess hx hrule hr'
      · obtain ⟨p', hp'⟩ := ih.tags i (hr.signed.born i _ hsess)
        have ht : t = .publish producer topic b :=
          congrArg Prod.fst (Option.some.inj (hsess.symm.trans hp'))
        subst ht
        exact absurd hag (by simp [system, Request.next])
      · exact absurd hrule (by simp [Looping])
      · exact ⟨ih.tags, ih.acknowledged, ih.free, ih.going, ih.drain⟩

/-! ## Between two iterations -/

/-- What an iteration that has ended has done. -/
theorem loop_iteration (h : Loop db₀ producer topic b w) {i : Sid} (hi : i < w.next)
    (hdone : Finished system w i) :
    hasCommitted w i = true ∧ returned w i = some (fetched (w.store.script i)).length
      ∧ (w.store.script i).filterMap produced
        = (fetched (w.store.script i)).map
          (fun e => (producer, OutboxPublisher.message topic e)) := by
  have hr := h.reachable
  have hloops := loop_loops h
  obtain ⟨t, r, hsess, -⟩ := hdone
  obtain ⟨p, hp⟩ := hloops.tags i hi
  have ht : t = .publish producer topic b :=
    congrArg Prod.fst (Option.some.inj (hsess.symm.trans hp))
  subst ht
  have htrail := hr.trail.2 i _ _ hsess rfl
  obtain ⟨os, ws, d, e, hscript, hd, he, hthrough, rfl⟩ := iteration_acknowledged htrail
    (fun o ho => hloops.acknowledged o (mem_script.mp ho).1) (reachable_growing hr i)
  have hfetched : fetched (w.store.script i) = fetched os := by
    rw [hscript]
    simp [fetched, polled, hd, he]
  refine ⟨?_, ?_, ?_⟩
  · unfold hasCommitted
    rw [hscript]
    simp [hd]
  · unfold returned ended
    rw [hsess, hfetched]
    rfl
  · rw [hfetched, ← hthrough.handed, hscript, List.filterMap_append]
    simp [produced, hd, he]

/-- Once every iteration has ended, the batches are what they have fetched. -/
theorem loop_batches (h : Loop db₀ producer topic b w) (hdone : ∀ i < w.next, Finished system w i) :
    batches w = (List.range w.next).map (fun i => fetched (w.store.script i)) := by
  unfold batches
  rw [List.filter_eq_self.mpr (fun i hi => (loop_iteration h (List.mem_range.mp hi)
    (hdone i (List.mem_range.mp hi))).1)]

/-- And they are what has been handed over. -/
theorem loop_produced (h : Loop db₀ producer topic b w)
    (hdone : ∀ i < w.next, Finished system w i) :
    w.store.trace.filterMap produced
      = (batches w).flatten.map (fun e => (producer, OutboxPublisher.message topic e)) := by
  rw [(loop_oneAtATime h).trace_eq, loop_batches h hdone, List.filterMap_flatMap, List.map_flatten,
    List.map_map, List.flatMap_def]
  refine congrArg List.flatten (List.map_congr_left (fun i hi => ?_))
  exact (loop_iteration h (List.mem_range.mp hi) (hdone i (List.mem_range.mp hi))).2.2

/-- The statement an iteration waits for can be answered. -/
theorem loop_ready (h : Loop db₀ producer topic b w) {i : Sid} {t : Request} {q : Stmt}
    {k : Except Exn q.Ans → Tx Reply} (hsess : w.sess i = some (t, .call q k)) :
    ∃ inp w', Looping producer topic b w (.exec i inp) ∧ system.step w (.exec i inp) = some w' := by
  have hseq := (loop_oneAtATime h).sequential
  have hborn := h.reachable.signed.born
  -- whoever holds a lock is this iteration: all others are done
  have hown : ∀ l ∈ w.store.locks, l.2 = i := by
    intro l hl
    obtain ⟨t', q', k', hs⟩ := (loop_loops h).free l hl
    have hlast : ∀ j (t'' : Request) (q'' : Stmt) (k'' : Except Exn q''.Ans → Tx Reply),
        w.sess j = some (t'', .call q'' k'') → w.next = j + 1 := fun j t'' q'' k'' hj =>
      Nat.le_antisymm (Nat.not_lt.mp (fun hlt => (hseq.done j hlt).not_call hj)) (hborn j _ hj)
    exact Nat.succ.inj ((hlast l.2 _ _ _ hs).symm.trans (hlast i _ _ _ hsess))
  obtain ⟨inp, e, hinp, he⟩ := run_total q i (w.store.view engine i) w.store.aux
  obtain ⟨w', hs⟩ := step_own (S := system) hsess hown he
  exact ⟨inp, w', hinp, hs⟩

/-- An iteration can always be brought to its end. -/
theorem loop_finishes (h : Loop db₀ producer topic b w) :
    ∃ w', Loop db₀ producer topic b w' ∧ Later system w w' ∧ w'.next = w.next
      ∧ ∀ i < w'.next, Finished system w' i := by
  rcases Nat.eq_zero_or_eq_succ_pred w.next with hnone | hsome
  · refine ⟨w, h, .refl, rfl, fun i hi => ?_⟩
    rw [hnone] at hi
    exact absurd hi (Nat.not_lt_zero i)
  · generalize w.next.pred = m at hsome
    obtain ⟨p, hp⟩ := (loop_loops h).tags m (by rw [hsome]; exact Nat.lt_succ_self m)
    obtain ⟨w', r, hg, hl, hend, hnext⟩ := h.finish hp (Uses.any p)
      (fun w₁ q k hg hs _ => loop_ready hg hs)
    refine ⟨w', hg, hl, hnext, fun i hi => ?_⟩
    rcases Nat.lt_succ_iff_lt_or_eq.mp (hsome ▸ hnext ▸ hi) with hlt | rfl
    · refine (loop_oneAtATime hg).sequential.done i ?_
      rw [hnext, hsome]
      exact Nat.succ_lt_succ hlt
    · exact ⟨_, r, hend, rfl⟩

/-! ## The end of the loop -/

/-- In a loop that has stopped, it is the last iteration that returned zero. -/
theorem loop_stopped (h : Loop db₀ producer topic b w) (hstop : Stopped w) :
    ∃ m, w.next = m + 1 ∧ returned w m = some 0 ∧ ∀ i < w.next, Finished system w i := by
  obtain ⟨m, hm⟩ := hstop
  have hended : ∃ t r, w.sess m = some (t, ofExcept r) := by
    cases he : ended w m with
    | none => exact absurd hm (by simp [returned, he])
    | some x => exact ⟨x.1, x.2, ended_ofExcept he⟩
  obtain ⟨t, r, hs⟩ := hended
  have hborn : m < w.next := h.reachable.signed.born m _ hs
  have hlast : w.next = m + 1 :=
    Nat.le_antisymm (Nat.not_lt.mp (fun hlt => (loop_loops h).going m hlt hm)) hborn
  refine ⟨m, hlast, hm, fun i hi => ?_⟩
  rw [hlast] at hi
  rcases Nat.lt_succ_iff_lt_or_eq.mp hi with hlt | rfl
  · refine (loop_oneAtATime h).sequential.done i ?_
    rw [hlast]
    exact Nat.succ_lt_succ hlt
  · obtain ⟨p, hp⟩ := (loop_loops h).tags i hborn
    cases hp.symm.trans hs
    exact ⟨_, r, hs, rfl⟩

/-- A loop that has not stopped goes on to the next iteration. -/
theorem loop_next (h : Loop db₀ producer topic b w) (hdone : ∀ i < w.next, Finished system w i)
    (hgoing : ¬Stopped w) : ∃ w', Loop db₀ producer topic b w' ∧ Later system w w'
      ∧ w'.next = w.next + 1
      ∧ ∀ i < w'.next, Finished system w' i := by
  have hs : system.step w (.spawn (.publish producer topic b)) = some ⟨w.store, upd w.sess w.next
    (some (.publish producer topic b, system.start (.publish producer topic b))), w.next + 1⟩ := rfl
  have hrule : Looping producer topic b w (.spawn (.publish producer topic b)) :=
    ⟨rfl, hdone, hgoing⟩
  have h₁ : Loop db₀ producer topic b _ := h.tail hrule hs
  obtain ⟨w', hg, hl, hnext, hfin⟩ := loop_finishes h₁
  exact ⟨w', hg, (Later.refl.tail hs).trans hl, hnext, hfin⟩

/-- Only the last batch can be empty: after an empty one nothing is started. -/
theorem loop_split (h : Loop db₀ producer topic b w)
    (hdone : ∀ i < w.next, Finished system w i) {m : Nat}
    (hlast : w.next = m + 1) : ∃ bs : List (List OutboxEvent),
      batches w = bs ++ [fetched (w.store.script m)] ∧ bs.length = m ∧ [] ∉ bs := by
  refine ⟨(List.range m).map (fun i => fetched (w.store.script i)), ?_, ?_, ?_⟩
  · rw [loop_batches h hdone, hlast, List.range_succ, List.map_append, List.map_singleton]
  · rw [List.length_map, List.length_range]
  · rw [List.mem_map]
    rintro ⟨i, hi, hempty⟩
    have hnext : i + 1 < w.next := by
      rw [hlast]
      exact Nat.succ_lt_succ (List.mem_range.mp hi)
    have hlt : i < w.next := Nat.lt_of_succ_lt hnext
    refine (loop_loops h).going i hnext ?_
    rw [(loop_iteration h hlt (hdone i hlt)).2.1, hempty]
    rfl

/-- There are only so many iterations. -/
theorem loop_bounded (h : Loop db₀ producer topic b w) (hb : 0 < b)
    (hdone : ∀ i < w.next, Finished system w i) :
    w.next ≤ (openEvents db₀).length ⌈/⌉ b + 1 := by
  rcases Nat.eq_zero_or_eq_succ_pred w.next with hnone | hsome
  · rw [hnone]
    exact Nat.zero_le _
  · obtain ⟨bs, hbs, hlength, hne⟩ := loop_split h hdone hsome
    have hdrain := (loop_loops h).drain
    rw [hbs] at hdrain
    obtain ⟨left, hd, -⟩ := hdrain.snoc_inv
    rw [hsome, ← hlength]
    exact Nat.succ_le_succ (hd.length_le hb hne)

/-- **The loop can always be brought to its end.** -/
theorem loop_stops (hb : 0 < b) (h : Loop db₀ producer topic b w) :
    ∃ w', Loop db₀ producer topic b w' ∧ Later system w w' ∧ Stopped w' := by
  obtain ⟨w₀, h₀, hl₀, -, hdone₀⟩ := loop_finishes h
  suffices hrun : ∀ (k : Nat) (w₁ : LedgerWorld), Loop db₀ producer topic b w₁ →
      (∀ i < w₁.next, Finished system w₁ i) → (openEvents db₀).length ⌈/⌉ b + 1 < w₁.next + k →
      ∃ w', Loop db₀ producer topic b w' ∧ Later system w₁ w' ∧ Stopped w' by
    obtain ⟨w', hg, hl, hstop⟩ := hrun ((openEvents db₀).length ⌈/⌉ b + 2) w₀ h₀ hdone₀ (by omega)
    exact ⟨w', hg, hl₀.trans hl, hstop⟩
  -- every further iteration uses up one of those there can be
  intro k
  induction k with
  | zero =>
      intro w₁ h₁ hdone₁ hk
      exact absurd (loop_bounded h₁ hb hdone₁) (Nat.not_le.mpr hk)
  | succ k ih =>
      intro w₁ h₁ hdone₁ hk
      by_cases hstop : Stopped w₁
      · exact ⟨w₁, h₁, .refl, hstop⟩
      · obtain ⟨w₂, h₂, hl₂, hnext, hdone₂⟩ := loop_next h₁ hdone₁ hstop
        have hmore : (openEvents db₀).length ⌈/⌉ b + 1 < w₂.next + k := by
          rw [hnext, Nat.add_right_comm]
          exact hk
        obtain ⟨w', hg, hl, hstop'⟩ := ih w₂ h₂ hdone₂ hmore
        exact ⟨w', hg, hl₂.trans hl, hstop'⟩

omit [Runtime] in
theorem flatMap_length_bound {α β : Type} {l : List Nat} {f : Nat → List α} {g : Nat
    → List β} {m n : Nat}
    (h : ∀ i ∈ l, (f i).length ≤ m * (g i).length + n) :
    (l.flatMap f).length ≤ m * (l.flatMap g).length + n * l.length := by
  induction l with
  | nil => simp
  | cons i l ih =>
      have hhead := h i List.mem_cons_self
      have htail := ih (fun j hj => h j (List.mem_cons_of_mem i hj))
      rw [List.flatMap_cons, List.flatMap_cons, List.length_append, List.length_append,
        List.length_cons,
        Nat.mul_add, Nat.mul_succ]
      omega

/-- **A loop does not go on forever.** -/
theorem loop_length (h : Loop db₀ producer topic b w) (hb : 0 < b) :
    w.store.trace.length ≤ 3 * (openEvents db₀).length
      + 5 * ((openEvents db₀).length ⌈/⌉ b + 1) := by
  obtain ⟨w', h', hl, -, hdone⟩ := loop_finishes h
  obtain ⟨-, os, -, htrace, -⟩ := hl.history
  have hlonger : w.store.trace.length ≤ w'.store.trace.length := by
    rw [htrace, List.length_append]
    exact Nat.le_add_right _ _
  -- once all iterations have ended, the length of each is a matter of its batch
  have hscript : ∀ i ∈ List.range w'.next,
      (w'.store.script i).length ≤ 3 * (fetched (w'.store.script i)).length + 5 := by
    intro i hi
    have hlt := List.mem_range.mp hi
    obtain ⟨t, r, hsess, -⟩ := hdone i hlt
    obtain ⟨p, hp⟩ := (loop_loops h').tags i hlt
    cases hp.symm.trans hsess
    exact iteration_length (h'.reachable.trail.2 i _ _ hsess rfl)
  have hall := flatMap_length_bound hscript
  have hbatches : (List.range w'.next).flatMap (fun i => fetched (w'.store.script i))
      = (batches w').flatten := by
    rw [loop_batches h' hdone, List.flatMap_def]
  have hperm := (loop_loops h').drain.perm.length_eq
  have hnext : 5 * (List.range w'.next).length ≤ 5 * ((openEvents db₀).length ⌈/⌉ b + 1) := by
    rw [List.length_range]
    exact Nat.mul_le_mul_left 5 (loop_bounded h' hb hdone)
  rw [hbatches, ← (loop_oneAtATime h').trace_eq] at hall
  rw [List.length_append] at hperm
  omega

/-- What the iterations of a loop have returned, in order. -/
def counts (w : LedgerWorld) : List Nat := (List.range w.next).filterMap (returned w)

/-- What a loop that has stopped has done. -/
structure Drained (db₀ : Db) (producer : Nat) (topic : String) (b : Nat)
    (w : LedgerWorld) : Prop where
  /-- As many batches as the open events fill, each with at least one of them, and then zero. -/
  rounds : ∃ cs : List Nat, counts w = cs ++ [0] ∧ 0 ∉ cs
    ∧ cs.length = (openEvents db₀).length ⌈/⌉ b
    ∧ cs.sum = (openEvents db₀).length
  /-- Every event that was open has been handed over once, and nothing else, the oldest first. -/
  messages : ∃ events : List OutboxEvent, events.Perm (openEvents db₀)
    ∧ events.Pairwise (fun e e' => e.createdAt ≤ e'.createdAt)
    ∧ w.store.trace.filterMap produced
      = events.map (fun e => (producer, OutboxPublisher.message topic e))
  emptied : openEvents w.store.db = []

/-- **A loop that has stopped has drained the outbox.** -/
theorem loop_drained (h : Loop db₀ producer topic b w) (hb : 0 < b) (hstop : Stopped w) :
    Drained db₀ producer topic b w := by
  obtain ⟨m, hlast, hzero, hdone⟩ := loop_stopped h hstop
  have hiter : ∀ i ∈ List.range w.next,
      returned w i = some (fetched (w.store.script i)).length := fun i hi =>
    (loop_iteration h (List.mem_range.mp hi) (hdone i (List.mem_range.mp hi))).2.1
  have hcounts : counts w = (batches w).map List.length := by
    unfold counts
    rw [List.filterMap_congr hiter, List.filterMap_eq_map', loop_batches h hdone, List.map_map]
    rfl
  obtain ⟨bs, hbs, -, hne⟩ := loop_split h hdone hlast
  -- the iteration that has returned zero has found nothing
  have hempty : fetched (w.store.script m) = [] := by
    have hm := hiter m (List.mem_range.mpr (hlast ▸ Nat.lt_succ_self m))
    rw [hzero] at hm
    exact List.eq_nil_of_length_eq_zero (Option.some.inj hm).symm
  rw [hempty] at hbs
  have hdrain := (loop_loops h).drain
  rw [hbs] at hdrain
  obtain ⟨hrest, hlength, hsum, hperm⟩ := hdrain.exhausted hb hne
  refine ⟨⟨bs.map List.length, ?_, ?_, ?_, hsum⟩, ⟨bs.flatten, hperm.symm, ?_, ?_⟩, hrest⟩
  · rw [hcounts, hbs, List.map_append]
    rfl
  · rw [List.mem_map]
    rintro ⟨batch, hbatch, hlen⟩
    rw [List.eq_nil_of_length_eq_zero hlen] at hbatch
    exact hne hbatch
  · rw [List.length_map, hlength]
  · have hsorted := hdrain.sorted.1
    rw [List.flatten_append] at hsorted
    exact (List.pairwise_append.mp hsorted).1
  · rw [loop_produced h hdone, hbs, List.flatten_append]
    simp

end loop

/-- **The publisher drains the outbox.** Iterating until zero comes to an end: only so many
statements are executed, and from wherever the loop has got to it can be brought to its end.
When it has ended, the open events have been published, in as many batches as they fill, each of
them once and the oldest first. -/
theorem guided_drained (db₀ : Db) (producer : Nat) (topic : String) (b : Nat) (hb : 1 ≤ b) :
    (∀ w, Loop db₀ producer topic b w →
      w.store.trace.length ≤ 3 * (openEvents db₀).length + 5 * ((openEvents db₀).length ⌈/⌉ b + 1)
        ∧ ∃ w', Later system w w' ∧ Loop db₀ producer topic b w' ∧ Stopped w')
      ∧ ∀ w, Loop db₀ producer topic b w → Stopped w → Drained db₀ producer topic b w := by
  refine ⟨fun w h => ⟨loop_length h hb, ?_⟩, fun w h hstop => loop_drained h hb hstop⟩
  obtain ⟨w', h', hl, hstop⟩ := loop_stops hb h
  exact ⟨w', hl, h', hstop⟩

/-- A test for `Looping`. -/
def loopingOk (producer : Nat) (topic : String) (b : Nat) (w : LedgerWorld) : LedgerAction → Bool
  | .spawn t =>
      decide (t = .publish producer topic b) && (List.range w.next).all (finished system w)
      && (List.range w.next).all (fun i => decide (returned w i ≠ some 0))
  | .exec _ inp => decide (inp.fault = none) && decide (inp.kafkaFault = none)
      && inp.reports.all (fun r => decide (r.2 = none))
  | .crash _ => false
  | .env _ => true

theorem loopingOk_sound {db₀ : Db} {producer b : Nat} {topic : String} {w : LedgerWorld}
    {a : LedgerAction} (h : ReachableFrom db₀ w) (ha : loopingOk producer topic b w a = true) :
    Looping producer topic b w a := by
  cases a with
  | spawn t =>
      simp only [loopingOk, Bool.and_eq_true, List.all_eq_true, List.mem_range,
        decide_eq_true_eq] at ha
      obtain ⟨⟨ht, hdone⟩, hgoing⟩ := ha
      refine ⟨ht, fun i hi => finished_sound (hdone i hi), ?_⟩
      rintro ⟨i, hi⟩
      refine hgoing i ?_ hi
      cases he : ended w i with
      | none => exact absurd hi (by simp [returned, he])
      | some x => exact h.signed.born i _ (ended_ofExcept (t := x.1) (r := x.2) he)
  | exec i inp =>
      simp only [loopingOk, Bool.and_eq_true, List.all_eq_true, decide_eq_true_eq] at ha
      exact ⟨ha.1.1, ha.1.2, ha.2⟩
  | crash i => exact absurd ha (by simp [loopingOk])
  | env x => trivial

/-- An event of a deposit. -/
def waiting (id : Uuid) (createdAt : Time) (publishedAt : Option Time) : OutboxEvent :=
  ⟨id, "transaction", id, "TransactionCompleted",
    ⟨id, "DEPOSIT", "COMPLETED", "INR", 100, 7, none, createdAt⟩, createdAt, publishedAt⟩

/-- Three events that wait, two of them with one timestamp, and one that has been published. -/
def backlog : Db := Db.empty.applyAll
  [.insertEvent (waiting 1 20 none), .insertEvent (waiting 2 10 none),
    .insertEvent (waiting 3 20 none),
    .insertEvent (waiting 4 5 (some 6))]

/-- Batches of two: the third iteration finds nothing. -/
def threeRounds : List LedgerAction :=
  [.spawn (.publish 0 "wallet.transactions" 2), .exec 0 { batch := [2, 1] }, .exec 0 {}, .exec 0 {},
    .env (.ack 0 0), .env (.ack 1 0), .exec 0 { reports := [(0, none), (1, none)] }]
      ++ advance 0 6 30
  ++ [.spawn (.publish 0 "wallet.transactions" 2), .exec 1 { batch := [3] }, .exec 1 {},
    .env (.ack 2 0),
    .exec 1 { reports := [(2, none)] }] ++ advance 1 4 40
  ++ [.spawn (.publish 0 "wallet.transactions" 2)] ++ advance 2 3 50

omit [Runtime] in
/-- Two batches and an empty one. -/
theorem backlog_drained : ∃ w : LedgerWorld,
    (@Loop plainRuntime backlog 0 "wallet.transactions" 2 w ∧ Stopped w ∧ counts w = [2, 1, 0])
    ∧ Drained backlog 0 "wallet.transactions" 2 w := by
  have hrun : ((@system plainRuntime).guide (@loopingOk plainRuntime 0 "wallet.transactions" 2)
      (World.init (LedgerStore.start backlog)) threeRounds).map (fun w => (returned w 2, counts w))
      = some (some 0, [2, 1, 0]) := by decide +kernel
  obtain ⟨w, hw, hv⟩ := Option.map_eq_some_iff.mp hrun
  have hg := Guided.init.guide (fun h ha => @loopingOk_sound plainRuntime _ _ _ _ _ _ h ha) hw
  have hstop : Stopped w := ⟨2, congrArg Prod.fst hv⟩
  exact ⟨w, ⟨hg, hstop, congrArg Prod.snd hv⟩,
    (@guided_drained plainRuntime backlog 0 "wallet.transactions" 2 (by decide)).2 w hg hstop⟩

end WalletLedger
