import WalletLedger.Proof.Pipeline
import WalletLedger.Proof.Single

/-!
# Deliveries to one analytics service

An event delivered to a service that works alone is either filed already, and then
nothing happens, or it is filed and counted in one commit. So a sequence of
deliveries leaves the rollup of the events that were new when they came, each once,
and that depends on nothing but which events there were.
-/

namespace WalletLedger

open Isolation Prog AnalyticsService

/-! ## One delivery -/

section single

variable {i : Sid} {t : Request} {inp : Inp} {s : LedgerStore} {e : Payload}

/-- An event that is filed is skipped. -/
theorem solo_handleEvent_seen (h : Solo i [] s) (hf : inp.fault = none)
    (hin : InInbox s.db e.transactionId) :
    ∃ s', runAlone engine i t inp (handleEvent e) s = some (.ok false, s') ∧ Solo i [] s'
      ∧ s'.db = s.db := by
  obtain ⟨s₁, h₁, hs₁, hdb₁, -⟩ := solo_reads (t := t)
    (q := .selectProcessed consumerName e.transactionId) h hf rfl
  have hseen : (s.db.processedEvents.get (consumerName, e.transactionId)).isSome = true := hin
  refine ⟨s₁, ?_, hs₁, hdb₁⟩
  refine (runAlone_bind (runAlone_bind h₁)).trans ?_
  show runAlone engine i t inp
    (if (s.db.processedEvents.get (consumerName, e.transactionId)).isSome
      = true then _ else _) s₁ = _
  rw [if_pos hseen]
  rfl

/-- The row of the rollup, read and written back with one more event in it. -/
theorem solo_increment {ws : List Write} (h : Solo i ws s) (hf : inp.fault = none)
    (hview : (s.db.applyAll ws).transactionStats = s.db.transactionStats) :
    (checkStat (counted e (s.db.transactionStats.get e.aggregate)) = none →
      ∃ s', runAlone engine i t inp (TransactionStatRepository.increment e.currency
        e.type e.amount) s
          = some (.ok (), s')
        ∧ Solo i (ws ++ [statWrite e (s.db.transactionStats.get e.aggregate)]) s' ∧ s'.db = s.db)
    ∧ ∀ x, checkStat (counted e (s.db.transactionStats.get e.aggregate)) = some x →
      ∃ s', runAlone engine i t inp (TransactionStatRepository.increment e.currency
        e.type e.amount) s
          = some (.error (.db x), s') ∧ AtRest s' ∧ s'.db = s.db := by
  obtain ⟨s₁, h₁, hs₁, hdb₁, -⟩ := solo_reads (t := t) (q := .selectStat e.currency e.type) h hf rfl
  rw [hview] at h₁
  have hrow : (s₁.db.applyAll ws).transactionStats.get e.aggregate
      = s.db.transactionStats.get e.aggregate := by rw [hdb₁, hview]
  cases hstat : s.db.transactionStats.get e.aggregate with
  | none =>
      rw [hstat] at hrow
      have hkey : s.db.transactionStats.get (e.currency, e.type) = none := hstat
      rw [hkey] at h₁
      constructor
      · intro hc
        obtain ⟨s₂, h₂, hs₂, hdb₂, -⟩ := solo_writes (t := t)
          (q := .insertStat e.currency e.type (0 + 1) (0 + e.amount))
          (c := if ((s₁.db.applyAll ws).transactionStats.get e.aggregate).isSome
            then some .integrity else none)
          hs₁ hf hc (by rw [hrow]; rfl) rfl
        exact ⟨s₂, (runAlone_bind h₁).trans h₂, hs₂, hdb₂.trans hdb₁⟩
      · intro x hc
        obtain ⟨s₂, h₂, hs₂, hdb₂, -⟩ := solo_refused (t := t)
          (q := .insertStat e.currency e.type (0 + 1) (0 + e.amount)) (x := x) hs₁ hf (by
            rw [← hc]
            rfl)
        exact ⟨s₂, (runAlone_bind h₁).trans h₂, hs₂, hdb₂.trans hdb₁⟩
  | some stat =>
      rw [hstat] at hrow
      have hkey : s.db.transactionStats.get (e.currency, e.type) = some stat := hstat
      rw [hkey] at h₁
      constructor
      · intro hc
        obtain ⟨s₂, h₂, hs₂, hdb₂, -⟩ := solo_writes (t := t)
          (q := .updateStat e.currency e.type (stat.count + 1) (stat.totalAmount + e.amount))
          (c := if ((s₁.db.applyAll ws).transactionStats.get e.aggregate).isSome
            then none else some .stale)
          hs₁ hf hc (by rw [hrow]; rfl) rfl
        exact ⟨s₂, (runAlone_bind h₁).trans h₂, hs₂, hdb₂.trans hdb₁⟩
      · intro x hc
        obtain ⟨s₂, h₂, hs₂, hdb₂, -⟩ := solo_refused (t := t)
          (q := .updateStat e.currency e.type (stat.count + 1)
            (stat.totalAmount + e.amount)) (x := x)
          hs₁ hf (by
            rw [← hc]
            rfl)
        exact ⟨s₂, (runAlone_bind h₁).trans h₂, hs₂, hdb₂.trans hdb₁⟩

/-- An event that is new is filed; then it is counted and committed, or it does not fit. -/
theorem solo_handleEvent_new (h : Solo i [] s) (hf : inp.fault = none)
    (hnew : ¬InInbox s.db e.transactionId) :
    (checkStat (counted e (s.db.transactionStats.get e.aggregate)) = none →
      ∃ s', runAlone engine i t inp (handleEvent e) s = some (.ok true, s') ∧ Solo i [] s'
        ∧ s'.db = s.db.applyAll [.insertProcessed ⟨consumerName, e.transactionId⟩,
          statWrite e (s.db.transactionStats.get e.aggregate)])
    ∧ ∀ x, checkStat (counted e (s.db.transactionStats.get e.aggregate)) = some x →
      ∃ s', runAlone engine i t inp (handleEvent e) s = some (.error (.db x), s') ∧ Solo i [] s'
        ∧ s'.db = s.db := by
  obtain ⟨s₁, h₁, hs₁, hdb₁, -⟩ := solo_reads (t := t)
    (q := .selectProcessed consumerName e.transactionId) h hf rfl
  have hfree : s.db.processedEvents.get (consumerName, e.transactionId) = none :=
    Option.not_isSome_iff_eq_none.mp hnew
  have htaken : (s₁.db.processedEvents.get (consumerName, e.transactionId)).isSome = false := by
    rw [hdb₁, hfree]
    rfl
  have hcheck : checkProcessed ⟨consumerName, e.transactionId⟩ = none := by
    have hlen : consumerName.length ≤ 50 := by decide
    simp only [checkProcessed, firstError, hlen, decide_true, if_true]
  obtain ⟨s₂, h₂, hs₂, hdb₂, -⟩ := solo_writes (t := t)
    (q := .insertProcessed consumerName e.transactionId)
    (c := if (s₁.db.processedEvents.get (consumerName, e.transactionId)).isSome
      then some .integrity else none)
    hs₁ hf hcheck (by rw [htaken]; rfl) rfl
  have hdb : s₂.db = s.db := hdb₂.trans hdb₁
  -- up to here the outcome is settled, whatever `increment` does
  have hstart : ∀ {f : Bool → Tx Bool}, runAlone engine i t inp
      (ProcessedEventRepository.isProcessed consumerName e.transactionId >>= f) s
      = runAlone engine i t inp (f false) s₁ := by
    intro f
    rw [Db.applyAll_nil, hfree] at h₁
    exact runAlone_bind (runAlone_bind h₁)
  have hincr := solo_increment (t := t) (e := e) hs₂ hf rfl
  rw [hdb] at hincr
  refine ⟨fun hc => ?_, fun x hc => ?_⟩
  · obtain ⟨s₃, h₃, hs₃, hdb₃⟩ := hincr.1 hc
    obtain ⟨s₄, h₄, hs₄, hdb₄, -⟩ := solo_commit (t := t) hs₃ hf
    refine ⟨s₄, ?_, hs₄.solo i, ?_⟩
    · refine hstart.trans ((runAlone_bind h₂).trans ((runAlone_bind h₃).trans ?_))
      rw [attempt_bind]
      exact runAlone_handle h₄
    · rw [hdb₄, hdb₃]
      rfl
  · obtain ⟨s₃, h₃, hs₃, hdb₃⟩ := hincr.2 x hc
    exact ⟨s₃, hstart.trans ((runAlone_bind h₂).trans (runAlone_bind_error h₃)), hs₃.solo i, hdb₃⟩

end single

/-! ## A sequence of deliveries -/

/-- Deliver events to one service, one after another. -/
def deliverAll : List Payload → Tx (List Bool)
  | [] => pure []
  | e :: events => do
      let applied ← handleEvent e
      let rest ← deliverAll events
      pure (applied :: rest)

/-- The event at `n` is new when it comes, and its row of the rollup takes it or refuses it. -/
def NewAt (es events : List Payload) (n : Nat) (e : Payload) (x : Option DbError) : Prop :=
  events[n]? = some e ∧ e.transactionId ∉ (firsts es (events.take n)).map Payload.transactionId
    ∧ checkStat (counted e (summary (firsts es (events.take n)) e.aggregate)) = x

/-- Every delivery is answered with whether the event was new. -/
def Flagged (es events : List Payload) (bs : List Bool) : Prop :=
  bs.length = events.length ∧ ∀ n e, events[n]? = some e → bs[n]? = some
    (decide (e.transactionId ∉ (firsts es (events.take n)).map Payload.transactionId))

theorem firsts_seen {es : List Payload} {e : Payload}
    (h : e.transactionId ∈ es.map Payload.transactionId)
    (rest : List Payload) : firsts es (e :: rest) = firsts es rest := if_pos h

theorem firsts_new {es : List Payload} {e : Payload}
    (h : e.transactionId ∉ es.map Payload.transactionId)
    (rest : List Payload) : firsts es (e :: rest) = firsts (es ++ [e]) rest := if_neg h

/-- After the first delivery, the rest are delivered to what it has left. -/
theorem Flagged.cons {es es' events : List Payload} {e : Payload} {bs : List Bool}
    (h : Flagged es' events bs) (hes : ∀ rest, firsts es (e :: rest) = firsts es' rest) :
    Flagged es (e :: events)
      (decide (e.transactionId ∉ es.map Payload.transactionId) :: bs) := by
  refine ⟨congrArg (· + 1) h.1, fun n d hd => ?_⟩
  cases n with
  | zero =>
      cases hd
      rfl
  | succ n =>
      rw [List.take_succ_cons, hes]
      exact h.2 n d hd

theorem NewAt.cons {es es' events : List Payload} {e d : Payload} {n : Nat} {x : Option DbError}
    (hes : ∀ rest, firsts es (e :: rest) = firsts es' rest) :
    NewAt es (e :: events) (n + 1) d x ↔ NewAt es' events n d x := by
  unfold NewAt
  rw [List.take_succ_cons, hes]
  exact Iff.rfl

section sequence

variable {i : Sid} {t : Request} {inp : Inp} {s : LedgerStore} {es : List Payload}

/-- **A sequence of deliveries**, from the rollup of `es`: either every new event fits, and then
the rollup is that of the first deliveries, or the first one that does not ends it. -/
theorem solo_deliverAll (events : List Payload) (h : Solo i [] s) (hf : inp.fault = none)
    (hr : Rollup s.db es) :
    ((∀ n e x, NewAt es events n e x → x = none) ∧ ∃ bs s',
        runAlone engine i t inp (deliverAll events) s = some (.ok bs, s') ∧ Solo i [] s'
          ∧ Rollup s'.db (firsts es events) ∧ Flagged es events bs)
    ∨ ∃ n e x, NewAt es events n e (some x) ∧ ∃ s',
        runAlone engine i t inp (deliverAll events) s = some (.error (.db x), s') := by
  induction events generalizing s es with
  | nil => exact .inl ⟨fun n e x hn => absurd hn.1 (by simp), [], s, rfl, h, hr, rfl, by simp⟩
  | cons e events ih =>
      by_cases hin : e.transactionId ∈ es.map Payload.transactionId
      · -- a duplicate
        obtain ⟨s₁, h₁, hs₁, hdb₁⟩ := solo_handleEvent_seen (t := t) h hf ((hr.recorded _).mpr hin)
        have hr₁ : Rollup s₁.db es := hdb₁ ▸ hr
        have hes := firsts_seen hin
        rcases ih hs₁ hr₁ with ⟨hnone, bs, s₂, h₂, hs₂, hr₂, hbs⟩ | ⟨n, d, x, hn, s₂, h₂⟩
        · refine .inl ⟨fun n d x hn => ?_, false :: bs, s₂, ?_, hs₂, (hes events).symm ▸ hr₂, ?_⟩
          · cases n with
            | zero =>
                cases hn.1
                exact absurd hin hn.2.1
            | succ n => exact hnone n d x ((NewAt.cons hes).mp hn)
          · exact (runAlone_bind h₁).trans (runAlone_bind h₂)
          · have hcons := hbs.cons hes
            rwa [decide_eq_false (not_not.mpr hin)] at hcons
        · exact .inr ⟨n + 1, d, x, (NewAt.cons hes).mpr hn, s₂,
            (runAlone_bind h₁).trans (runAlone_bind_error h₂)⟩
      · have hnew : ¬InInbox s.db e.transactionId := fun hi => hin ((hr.recorded _).mp hi)
        have hes := firsts_new hin
        have hstep := solo_handleEvent_new (t := t) h hf hnew
        rw [hr.stats] at hstep
        cases hx : checkStat (counted e (summary es e.aggregate)) with
        | some x =>
            obtain ⟨s₁, h₁, -⟩ := hstep.2 x hx
            exact .inr ⟨0, e, x, ⟨rfl, hin, hx⟩, s₁, runAlone_bind_error h₁⟩
        | none =>
            obtain ⟨s₁, h₁, hs₁, hdb₁⟩ := hstep.1 hx
            have hr₁ : Rollup s₁.db (es ++ [e]) := by
              rw [hdb₁, ← hr.stats]
              exact hr.file hnew
            rcases ih hs₁ hr₁ with ⟨hnone, bs, s₂, h₂, hs₂, hr₂, hbs⟩ | ⟨n, d, x, hn, s₂, h₂⟩
            · refine .inl ⟨fun n d x hn => ?_, true :: bs, s₂, ?_, hs₂, (hes events).symm ▸ hr₂, ?_⟩
              · cases n with
                | zero =>
                    cases hn.1
                    exact hn.2.2.symm.trans hx
                | succ n => exact hnone n d x ((NewAt.cons hes).mp hn)
              · exact (runAlone_bind h₁).trans (runAlone_bind h₂)
              · have hcons := hbs.cons hes
                rwa [decide_eq_true hin] at hcons
            · exact .inr ⟨n + 1, d, x, (NewAt.cons hes).mpr hn, s₂,
                (runAlone_bind h₁).trans (runAlone_bind_error h₂)⟩

end sequence

/-! ## What they come to -/

theorem checkStat_eq_none {r : TransactionStat} : checkStat r = none ↔ r.currency.length ≤ 3
    ∧ r.type.length ≤ 20 ∧ fitsBigint r.count = true ∧ fitsBigint r.totalAmount = true := by
  unfold checkStat
  simp only [firstError]
  by_cases h₁ : r.currency.length ≤ 3 <;> by_cases h₂ : r.type.length ≤ 20 <;>
    by_cases h₃ : fitsBigint r.count = true <;> by_cases h₄ : fitsBigint r.totalAmount = true <;>
    simp [h₁, h₂, h₃, h₄]

/-- A row that is refused is refused for the range or the length of a value. -/
theorem checkStat_some {r : TransactionStat} {x : DbError}
    (h : checkStat r = some x) : x = .data := by
  unfold checkStat at h
  simp only [firstError] at h
  split at h
  · split at h
    · split at h
      · split at h
        · exact absurd h (by simp)
        · exact (Option.some.inj h).symm
      · exact (Option.some.inj h).symm
    · exact (Option.some.inj h).symm
  · exact (Option.some.inj h).symm

theorem counted_key (e : Payload) (row : Option TransactionStat) :
    (counted e row).currency = e.currency ∧ (counted e row).type = e.type := by
  cases row with
  | none => exact ⟨rfl, rfl⟩
  | some stat => exact ⟨rfl, rfl⟩

/-- The row that a new event is counted in has the sums of the events delivered so far. -/
theorem counted_sums {events : List Payload} (hag : Agreeing events) {n : Nat} {e : Payload}
    (he : events[n]? = some e)
    (hnew : e.transactionId ∉ (firsts [] (events.take n)).map Payload.transactionId) :
    (counted e (summary (firsts [] (events.take n)) e.aggregate)).count
        = countOf e.aggregate (events.take (n + 1))
      ∧ (counted e (summary (firsts [] (events.take n)) e.aggregate)).totalAmount
        = totalOf e.aggregate (events.take (n + 1)) := by
  have htake : events.take (n + 1) = events.take n ++ [e] := by
    rw [List.take_add_one, he]
    rfl
  have hprefix : Agreeing ([] ++ events.take (n + 1)) := fun a ha b hb =>
    hag a (List.mem_of_mem_take ha) b (List.mem_of_mem_take hb)
  have hmem := mem_firsts hprefix
  simp only [List.not_mem_nil, false_or] at hmem
  refine (summary_aggregated (@nodup_firsts [] List.nodup_nil _) hmem e.aggregate).2 _ ?_
  rw [htake, firsts_snoc hnew]
  exact summary_self _ e

/-- If every new event fits, the totals do. -/
theorem totalOf_lt {events : List Payload} (hag : Agreeing events)
    (hnone : ∀ n e x, NewAt [] events n e x → x = none) (n : Nat) (k : String × String) :
    totalOf k (events.take n) < 2 ^ 63 := by
  induction n with
  | zero =>
      have hzero : totalOf k (events.take 0) = 0 := rfl
      omega
  | succ n ih =>
      cases he : events[n]? with
      | none =>
          have hlen : events.length ≤ n := List.getElem?_eq_none_iff.mp he
          rw [List.take_of_length_le (Nat.le_succ_of_le hlen)]
          rw [List.take_of_length_le hlen] at ih
          exact ih
      | some e =>
          have htake : events.take (n + 1) = events.take n ++ [e] := by
            rw [List.take_add_one, he]
            rfl
          by_cases hnew : e.transactionId ∉ (firsts [] (events.take n)).map Payload.transactionId
          · by_cases hk : e.aggregate = k
            · -- it is counted in this row, and the row fits
              subst hk
              have hfits := checkStat_eq_none.mp (hnone n e _ ⟨he, hnew, rfl⟩)
              have hle := hfits.2.2.2
              rw [(counted_sums hag he hnew).2] at hle
              unfold fitsBigint at hle
              rw [Bool.and_eq_true, decide_eq_true_eq, decide_eq_true_eq] at hle
              exact hle.2
            · have hsame : countedFor k (events.take n ++ [e]) = countedFor k (events.take n) := by
                rw [countedFor_append, if_neg hk, List.append_nil]
              rw [htake]
              unfold totalOf at ih ⊢
              rw [hsame]
              exact ih
          · -- it has been counted
            have hid := (mem_ids_firsts [] (events.take n) e.transactionId).mp (not_not.mp hnew)
            obtain ⟨d, hd, heq⟩ := List.mem_map.mp (hid.resolve_left (by simp))
            have hde : d = e :=
              hag d (List.mem_of_mem_take hd) e (List.mem_of_getElem? he) heq
            subst hde
            have hset : ∀ x, x ∈ events.take n ++ [d] ↔ x ∈ events.take n := by
              intro x
              rw [List.mem_append, List.mem_singleton]
              exact ⟨fun h => h.elim id (fun hx => hx ▸ hd), .inl⟩
            rw [htake, totalOf_congr hset]
            exact ih

/-- Payloads that make sense, and totals that stay within the columns. -/
structure Deliverable (events : List Payload) : Prop where
  fits : ∀ e ∈ events, e.currency.length ≤ 3 ∧ e.type.length ≤ 20
  agree : Agreeing events
  range : ∀ n k, fitsBigint (countOf k (events.take n)) = true
    ∧ fitsBigint (totalOf k (events.take n)) = true

theorem Deliverable.accepted {events : List Payload}
    (h : Deliverable events) {n : Nat} {e : Payload}
    {x : Option DbError} (hn : NewAt [] events n e x) : x = none := by
  obtain ⟨he, hnew, rfl⟩ := hn
  obtain ⟨hcount, htotal⟩ := counted_sums h.agree he hnew
  obtain ⟨hcur, htype⟩ := h.fits e (List.mem_of_getElem? he)
  obtain ⟨hc, hty⟩ := counted_key e (summary (firsts [] (events.take n)) e.aggregate)
  obtain ⟨hr₁, hr₂⟩ := h.range (n + 1) e.aggregate
  refine checkStat_eq_none.mpr ⟨by rw [hc]; exact hcur, by rw [hty]; exact htype, ?_, ?_⟩
  · rw [hcount]
    exact hr₁
  · rw [htotal]
    exact hr₂

theorem fitsBigint_of {x : Int} (h₀ : 0 ≤ x) (h : x < 2 ^ 63) : fitsBigint x = true := by
  unfold fitsBigint
  rw [Bool.and_eq_true, decide_eq_true_eq, decide_eq_true_eq]
  omega

/-- Where amounts are positive, it is enough to look at the totals in the end. -/
theorem range_of_totals {events : List Payload} (hpos : ∀ e ∈ events, 0 < e.amount)
    (hag : Agreeing events) (h : ∀ k, totalOf k events < 2 ^ 63) (n : Nat) (k : String × String) :
    fitsBigint (countOf k (events.take n)) = true
      ∧ fitsBigint (totalOf k (events.take n)) = true := by
  have hcount : countOf k (events.take n) ≤ totalOf k (events.take n) :=
    countOf_le_totalOf (fun e he => hpos e (List.mem_of_mem_take he))
      (fun a ha b hb => hag a (List.mem_of_mem_take ha) b (List.mem_of_mem_take hb)) k
  have htotal : totalOf k (events.take n) ≤ totalOf k events :=
    totalOf_le (fun e he => Int.le_of_lt (hpos e he)) (List.take_subset n events) k
  have hnonneg : 0 ≤ countOf k (events.take n) := Int.natCast_nonneg _
  have hall := h k
  exact ⟨fitsBigint_of hnonneg (by omega), fitsBigint_of (by omega) (by omega)⟩

theorem deliverAll_ends {i : Sid} {t : Request} {inp : Inp} {s : LedgerStore}
    {events : List Payload}
    (h : Solo i [] s) (hr : Rollup s.db []) (hd : Deliverable events) (hf : inp.fault = none) :
    ∃ bs s', runAlone engine i t inp (deliverAll events) s = some (.ok bs, s')
      ∧ Flagged [] events bs ∧ Aggregated events s'.db := by
  rcases solo_deliverAll (t := t) events h hf hr with ⟨-, bs, s', hx, -, hr', hbs⟩
    | ⟨n, e, x, hn, -⟩
  · have hmem := @mem_firsts [] _ hd.agree
    simp only [List.not_mem_nil, false_or] at hmem
    exact ⟨bs, s', hx, hbs, hr'.aggregated hmem⟩
  · exact absurd (hd.accepted hn) (by simp)

/-- **The rollup of a sequence of deliveries** to one service: each event is applied at its first
delivery and skipped at every other, and what is left depends on the set of events alone. -/
theorem deliverAll_rollup (i : Sid) (t : Request) (inp : Inp) (hf : inp.fault = none)
    (s : LedgerStore) (hs : Solo i [] s) (hr : Rollup s.db []) (events : List Payload)
    (hd : Deliverable events) :
    ∃ bs s', runAlone engine i t inp (deliverAll events) s = some (.ok bs, s')
      ∧ (bs.length = events.length ∧ ∀ n e, events[n]? = some e →
        bs[n]? = some (decide (e.transactionId ∉ (events.take n).map Payload.transactionId)))
      ∧ Aggregated events s'.db
      ∧ ∀ other, Deliverable other → (∀ e, e ∈ other ↔ e ∈ events) →
        ∃ bs' s'', runAlone engine i t inp (deliverAll other) s = some (.ok bs', s'')
          ∧ ∀ k, s''.db.transactionStats.get k = s'.db.transactionStats.get k := by
  obtain ⟨bs, s', hx, hflags, hagg⟩ := deliverAll_ends (t := t) hs hr hd hf
  refine ⟨bs, s', hx, ⟨hflags.1, fun n e he => ?_⟩, hagg, fun other ho hsame => ?_⟩
  · rw [hflags.2 n e he]
    refine congrArg some (decide_eq_decide.mpr ?_)
    rw [mem_ids_firsts, List.map_nil]
    simp only [List.not_mem_nil, false_or]
  · obtain ⟨bs', s'', hx', -, hagg'⟩ := deliverAll_ends (t := t) hs hr ho hf
    exact ⟨bs', s'', hx', hagg.same hagg' (fun e => (hsame e).symm)⟩

/-- Two deposits and a withdrawal, the first of them delivered three times. -/
def arrivals : List Payload :=
  [depositEvent 1, depositEvent 2, depositEvent 1,
    ⟨3, "WITHDRAWAL", "COMPLETED", "INR", 40, 31, none, 0⟩,
    depositEvent 1]

theorem arrivals_deliverable : Deliverable arrivals where
  fits := by decide
  agree := by
    unfold Agreeing
    decide
  range := by
    refine range_of_totals (by decide) (by unfold Agreeing; decide) (fun k => ?_)
    by_cases hd : k = ("INR", "DEPOSIT")
    · subst hd
      decide
    · by_cases hw : k = ("INR", "WITHDRAWAL")
      · subst hw
        decide
      · have hnone : countedFor k arrivals = [] := by
          rw [List.eq_nil_iff_forall_not_mem]
          intro e he
          obtain ⟨hmem, hk⟩ := mem_countedFor.mp he
          simp only [arrivals, List.mem_cons, List.not_mem_nil, or_false] at hmem
          rcases hmem with rfl | rfl | rfl | rfl | rfl
          · exact hd hk.symm
          · exact hd hk.symm
          · exact hd hk.symm
          · exact hw hk.symm
          · exact hd hk.symm
        unfold totalOf
        rw [hnone]
        decide

theorem arrivals_rollup : ∃ bs s',
    runAlone engine 0 .analyticsConsumer {} (deliverAll arrivals) (LedgerStore.start .empty)
      = some (.ok bs, s')
    ∧ (bs.length = arrivals.length ∧ ∀ n e, arrivals[n]? = some e →
      bs[n]? = some (decide (e.transactionId ∉ (arrivals.take n).map Payload.transactionId)))
    ∧ Aggregated arrivals s'.db
    ∧ ∀ other, Deliverable other → (∀ e, e ∈ other ↔ e ∈ arrivals) →
      ∃ bs' s'', runAlone engine 0 .analyticsConsumer {} (deliverAll other)
          (LedgerStore.start .empty) = some (.ok bs', s'')
        ∧ ∀ k, s''.db.transactionStats.get k = s'.db.transactionStats.get k :=
  deliverAll_rollup 0 .analyticsConsumer {} rfl (LedgerStore.start .empty)
    (AtRest.solo ⟨fun _ => rfl, rfl⟩ 0) ⟨List.nodup_nil, rfl, fun _ => rfl⟩ arrivals
      arrivals_deliverable

/-! ## The events of the ledger

A balance only ever holds what is left after withdrawals, and every wallet has its own. A
row of the rollup adds up all amounts of its currency and type for good, in a column of the
same width. So the ledger can accept what the rollup cannot take.
-/

section accepted

variable [Runtime] {w : LedgerWorld} {e d : Payload}

/-- Currencies of transactions fit their column. -/
theorem reachable_currencies (h : ReachableFrom .empty w) :
    ∀ t ∈ w.store.db.transactions.rows, t.currency.length ≤ 3 := by
  refine (reachable_settled h).history.induct
    (P := fun (db : Db) => ∀ t ∈ db.transactions.rows, t.currency.length ≤ 3)
    (fun t ht => absurd ht (by simp [Db.empty])) (fun q db ws hl hdb => ?_)
  rcases hl.cases with ⟨u, -, rfl⟩ | ⟨x, -, -, rfl⟩ | ⟨mv, m, -, hok, hu, rfl⟩ | hout
  · exact hdb
  · exact hdb
  · intro t ht
    rw [(Movement.posted hok.shaped hu).transactions] at ht
    rcases List.mem_append.mp ht with ht | ht
    · exact hdb t ht
    · rw [List.mem_singleton.mp ht]
      exact hok.fits.currency
  · rw [(sameBooks_applyAll db hout).transactions]
    exact hdb

/-- What an event of the outbox says. -/
theorem InOutbox.accepted (he : InOutbox w.store.db e) (h : ReachableFrom .empty w) :
    0 < e.amount ∧ e.currency.length ≤ 3 ∧ e.type.length ≤ 20 := by
  obtain ⟨ev, hev, rfl⟩ := he
  have hbooks := reachable_books h
  obtain ⟨t, ht⟩ := Option.isSome_iff_exists.mp (hbooks.announced ev hev)
  obtain ⟨hmem, hid⟩ := Table.get_eq_some.mp ht
  obtain ⟨mv, m, hr⟩ := hbooks.recorded t hmem
  have hin : ev.unstamped ∈ [mv.event m] := by
    rw [← hr.event]
    exact List.mem_map_of_mem (List.mem_filter.mpr ⟨hev, decide_eq_true hid.symm⟩)
  have hpay : ev.payload = (mv.event m).payload := by
    rw [← List.mem_singleton.mp hin]
    rfl
  have hcur : t.currency.length ≤ 3 := reachable_currencies h t hmem
  rw [hr.txn] at hcur
  rw [hpay]
  refine ⟨hr.amount_pos, hcur, ?_⟩
  show mv.type.value.length ≤ 20
  cases mv.type <;> decide

/-- One transaction, one event. -/
theorem InOutbox.agree (he : InOutbox w.store.db e) (hd : InOutbox w.store.db d)
    (h : ReachableFrom .empty w) (hid : e.transactionId = d.transactionId) : e = d := by
  have hann := reachable_announced w h
  have howner : ∀ x ∈ w.store.db.outboxEvents.rows, x.payload.transactionId = x.aggregateId := by
    intro x hx
    obtain ⟨t, ht, htid, -⟩ := hann.2 x hx
    obtain ⟨x', -, ⟨-, hagrees⟩, huniq⟩ := hann.1 t ht
    rw [huniq x hx htid.symm, hagrees.1]
    exact htid.trans (congrArg OutboxEvent.aggregateId (huniq x hx htid.symm))
  obtain ⟨x, hx, rfl⟩ := he
  obtain ⟨y, hy, rfl⟩ := hd
  rw [howner x hx, howner y hy] at hid
  obtain ⟨t, ht, htid, -⟩ := hann.2 y hy
  obtain ⟨z, -, -, huniq⟩ := hann.1 t ht
  rw [huniq x hx (hid.trans htid.symm), huniq y hy htid.symm]

end accepted

variable [Runtime]

/-- **The events of a ledger can all be applied exactly if no row's total outgrows its column**,
in whatever order and however often they are delivered; otherwise one of them is refused with
a range error. -/
theorem accepted_applied_iff (w : LedgerWorld) (h : ReachableFrom .empty w) (events : List Payload)
    (hout : ∀ e ∈ events, InOutbox w.store.db e) (i : Sid) (t : Request) (inp : Inp)
    (hf : inp.fault = none) (s : LedgerStore) (hs : Solo i [] s) (hr : Rollup s.db []) :
    ((∃ bs s', runAlone engine i t inp (deliverAll events) s = some (.ok bs, s'))
        ↔ ∀ k, totalOf k events < 2 ^ 63)
      ∧ ((∃ k, 2 ^ 63 ≤ totalOf k events) →
        ∃ s', runAlone engine i t inp (deliverAll events) s = some (.error (.db .data), s')) := by
  have hpos : ∀ e ∈ events, 0 < e.amount := fun e he => ((hout e he).accepted h).1
  have hag : Agreeing events := fun e he d hd hid => (hout e he).agree (hout d hd) h hid
  have hends := solo_deliverAll (t := t) events hs hf hr
  -- if every event fits, so does the row that counts the last one of a key
  have hfits : (∀ n e x, NewAt [] events n e x → x = none) → ∀ k, totalOf k events < 2 ^ 63 := by
    intro hnone k
    have hlt := totalOf_lt hag hnone events.length k
    rwa [List.take_length] at hlt
  have hover : (∃ k, 2 ^ 63 ≤ totalOf k events) →
      ∃ s', runAlone engine i t inp (deliverAll events) s = some (.error (.db .data), s') := by
    rintro ⟨k, hk⟩
    rcases hends with ⟨hnone, -⟩ | ⟨n, e, x, hn, s', hx⟩
    · have := hfits hnone k
      omega
    · rw [checkStat_some hn.2.2] at hx
      exact ⟨s', hx⟩
  refine ⟨⟨?_, fun htotals => ?_⟩, hover⟩
  · rintro ⟨bs, s', hx⟩ k
    by_contra hk
    obtain ⟨s'', hx'⟩ := hover ⟨k, Int.not_lt.mp hk⟩
    rw [hx] at hx'
    exact absurd hx' (by simp)
  · have hd : Deliverable events :=
      ⟨fun e he => ((hout e he).accepted h).2, hag, range_of_totals hpos hag htotals⟩
    obtain ⟨bs, s', hx, -⟩ := deliverAll_ends (t := t) hs hr hd hf
    exact ⟨bs, s', hx⟩

/-- Ann and Bob each deposit as much as a wallet can hold. -/
def fullHouse : List LedgerAction :=
  accounts ++ [.spawn (.deposit 31 12 (depositOf (2 ^ 63 - 1)))] ++ advance 4 14 50
    ++ [.spawn (.deposit 41 22 (depositOf (2 ^ 63 - 1)))] ++ advance 5 14 70

/-- The event of a deposit of that much. -/
def fullDeposit (txn wallet : Uuid) : Payload :=
  ⟨txn, "DEPOSIT", "COMPLETED", "INR", 2 ^ 63 - 1, wallet, none, 0⟩

omit [Runtime] in
theorem fullHouse_outbox : ∃ w, @ReachableFrom plainRuntime .empty w
    ∧ w.store.db.outboxEvents.rows.map OutboxEvent.payload
      = [fullDeposit 51 31, fullDeposit 71 41] :=
  exists_runPlain .empty fullHouse (fun w => w.store.db.outboxEvents.rows.map OutboxEvent.payload)
    (by decide +kernel)

omit [Runtime] in
/-- The ledger takes both deposits; the rollup takes one. -/
theorem rollup_overflows : ¬∀ w, @ReachableFrom plainRuntime .empty w → ∀ events,
    (∀ e ∈ events, InOutbox w.store.db e) → ∀ i (t : Request) (s : LedgerStore), Solo i [] s →
      Rollup s.db [] → ∃ bs s', runAlone engine i t {} (deliverAll events) s
        = some (.ok bs, s') := by
  intro hall
  obtain ⟨w, hr, hw⟩ := fullHouse_outbox
  have hout : ∀ e ∈ [fullDeposit 51 31, fullDeposit 71 41], InOutbox w.store.db e := by
    rw [← hw]
    intro e he
    obtain ⟨x, hx, hp⟩ := List.mem_map.mp he
    exact ⟨x, hx, hp⟩
  obtain ⟨bs, s', hx⟩ := hall w hr _ hout 0 .analyticsConsumer (LedgerStore.start .empty)
    (AtRest.solo ⟨fun _ => rfl, rfl⟩ 0) ⟨List.nodup_nil, rfl, fun _ => rfl⟩
  have hends : (runAlone engine 0 .analyticsConsumer {}
      (deliverAll [fullDeposit 51 31, fullDeposit 71 41]) (LedgerStore.start .empty)).map Prod.fst
      = some (.error (.db .data)) := by decide +kernel
  rw [hx] at hends
  exact absurd hends (by simp)

omit [Runtime] in
theorem fullHouse_applied : ∃ w, @ReachableFrom plainRuntime .empty w
    ∧ (((∃ bs s', runAlone engine 0 .analyticsConsumer {} (deliverAll [fullDeposit 71 41])
          (LedgerStore.start .empty) = some (.ok bs, s'))
        ↔ ∀ k, totalOf k [fullDeposit 71 41] < 2 ^ 63)
      ∧ ((∃ k, 2 ^ 63 ≤ totalOf k [fullDeposit 71 41]) → ∃ s',
        runAlone engine 0 .analyticsConsumer {} (deliverAll [fullDeposit 71 41])
          (LedgerStore.start .empty) = some (.error (.db .data), s'))) := by
  obtain ⟨w, hr, hw⟩ := fullHouse_outbox
  have hout : ∀ e ∈ [fullDeposit 71 41], InOutbox w.store.db e := by
    intro e he
    have hmem : e ∈ w.store.db.outboxEvents.rows.map OutboxEvent.payload := by
      rw [hw]
      exact .tail _ he
    obtain ⟨x, hx, hp⟩ := List.mem_map.mp hmem
    exact ⟨x, hx, hp⟩
  exact ⟨w, hr, @accepted_applied_iff plainRuntime w hr [fullDeposit 71 41] hout 0
    .analyticsConsumer {} rfl
    (LedgerStore.start .empty) (AtRest.solo ⟨fun _ => rfl, rfl⟩ 0)
      ⟨List.nodup_nil, rfl, fun _ => rfl⟩⟩

end WalletLedger
