import Mathlib.Algebra.Order.BigOperators.Group.List
import WalletLedger.Db.Growth
import WalletLedger.Spec.Movement

/-!
# The rollup

What the analytics tables are for: the inbox says which events have been counted,
and a row of the rollup says how many of them there are of one currency and type
and what they add up to. `Rollup db events` is the whole of it: the inbox and the
rows are what `events` make them.

`Rollup.file` is the one step: an event that is not in the inbox, and the row that
counts it added up from the row that is there.
-/

namespace WalletLedger

open Isolation AnalyticsService

/-! ## The inbox -/

/-- The inbox holds the event of a transaction. -/
def InInbox (db : Db) (id : Uuid) : Prop :=
  (db.processedEvents.get (consumerName, id)).isSome = true

instance (db : Db) (id : Uuid) : Decidable (InInbox db id) :=
  inferInstanceAs (Decidable (_ = true))

/-- What is filed stays filed. -/
theorem InInbox.grows {db db' : Db} {id : Uuid} (h : InInbox db id) (hg : db.Grows db') :
    InInbox db' id := by
  obtain ⟨p, hp⟩ := Option.isSome_iff_exists.mp h
  exact Option.isSome_iff_exists.mpr ⟨p, hg.processed _ p hp⟩

/-- A commit that files an event puts it into the inbox. -/
theorem inInbox_applyAll {db : Db} {id : Uuid} {ws : List Write}
    (h : .insertProcessed ⟨consumerName, id⟩ ∈ ws) : InInbox (db.applyAll ws) id := by
  induction ws generalizing db with
  | nil => exact absurd h (by simp)
  | cons w ws ih =>
      rcases List.mem_cons.mp h with rfl | h
      · have hnow : InInbox (db.apply (.insertProcessed ⟨consumerName, id⟩)) id := by
          unfold InInbox
          cases hg : (db.apply (.insertProcessed ⟨consumerName, id⟩)).processedEvents.get
              (consumerName, id) with
          | some p => rfl
          | none =>
              -- then the key was free, and the row is there
              have hfree := Table.get_of_insert_none hg
              have hself := Table.get_insert_self (a := (⟨consumerName, id⟩ : ProcessedEvent)) hfree
              exact absurd (hg.symm.trans hself) (by simp)
        exact hnow.grows (.applyAll _ ws)
      · exact ih h

/-! ## The rows -/

/-- The currency and type an event counts towards. -/
def Payload.aggregate (e : Payload) : String × String := (e.currency, e.type)

/-- The events of one currency and type. -/
def countedFor (k : String × String) (events : List Payload) : List Payload :=
  events.filter (fun e => decide (e.aggregate = k))

/-- The row of the rollup that some events make; none if there is nothing to count. -/
def summary (events : List Payload) (k : String × String) : Option TransactionStat :=
  match countedFor k events with
  | [] => none
  | e :: es => some ⟨k.1, k.2, Int.ofNat (es.length + 1), ((e :: es).map Payload.amount).sum⟩

/-- The row with one more event in it. -/
def counted (e : Payload) : Option TransactionStat → TransactionStat
  | none => ⟨e.currency, e.type, 0 + 1, 0 + e.amount⟩
  | some stat => ⟨e.currency, e.type, stat.count + 1, stat.totalAmount + e.amount⟩

/-- The write that counts an event, given the row that was read. -/
def statWrite (e : Payload) : Option TransactionStat → Write
  | none => .insertStat (counted e none)
  | some stat => .setStat e.aggregate (stat.count + 1) (stat.totalAmount + e.amount)

theorem TransactionStat.set_key (c total : Int) (r : TransactionStat) :
    (r.set c total).key = r.key := rfl

/-- **The inbox and the rows are what these events make them.** -/
structure Rollup (db : Db) (events : List Payload) : Prop where
  distinct : (events.map Payload.transactionId).Nodup
  inbox : db.processedEvents.rows = events.map (fun e => ⟨consumerName, e.transactionId⟩)
  stats : ∀ k, db.transactionStats.get k = summary events k

theorem Rollup.recorded {db : Db} {events : List Payload} (h : Rollup db events) (id : Uuid) :
    InInbox db id ↔ id ∈ events.map Payload.transactionId := by
  have hget : InInbox db id ↔ ∃ p ∈ db.processedEvents.rows, p.key = (consumerName, id) := by
    constructor
    · intro hin
      obtain ⟨p, hp⟩ := Option.isSome_iff_exists.mp hin
      exact ⟨p, Table.get_eq_some.mp hp⟩
    · rintro ⟨p, hp⟩
      exact Option.isSome_iff_exists.mpr ⟨p, Table.get_eq_some.mpr hp⟩
  rw [hget, h.inbox]
  constructor
  · rintro ⟨p, hp, hk⟩
    obtain ⟨e, he, rfl⟩ := List.mem_map.mp hp
    have hid : e.transactionId = id := congrArg Prod.snd hk
    exact List.mem_map.mpr ⟨e, he, hid⟩
  · intro hid
    obtain ⟨e, he, rfl⟩ := List.mem_map.mp hid
    exact ⟨_, List.mem_map_of_mem he, rfl⟩

theorem countedFor_append (k : String × String) (events : List Payload) (e : Payload) :
    countedFor k (events ++ [e])
      = countedFor k events ++ if e.aggregate = k then [e] else [] := by
  unfold countedFor
  rw [List.filter_append]
  by_cases h : e.aggregate = k
  · simp [h]
  · simp [h]

theorem summary_ne {e : Payload} {k : String × String} (h : e.aggregate ≠ k)
    (events : List Payload) :
    summary (events ++ [e]) k = summary events k := by
  unfold summary
  rw [countedFor_append, if_neg h, List.append_nil]

/-- One more event is counted in its row. -/
theorem summary_self (events : List Payload) (e : Payload) :
    summary (events ++ [e]) e.aggregate = some (counted e (summary events e.aggregate)) := by
  unfold summary
  rw [countedFor_append, if_pos rfl]
  cases countedFor e.aggregate events with
  | nil => simp [counted, Payload.aggregate]
  | cons x xs =>
      rw [List.cons_append]
      simp only [counted, Payload.aggregate, List.length_append,
        List.length_singleton, List.map_cons,
        List.map_append, List.map_nil, List.sum_cons, List.sum_append, List.sum_nil]
      congr 2
      omega

theorem stats_self {db : Db} {e : Payload}
    (hr : ∀ stat, db.transactionStats.get e.aggregate = some stat → stat.key = e.aggregate) :
    (db.apply (statWrite e (db.transactionStats.get e.aggregate))).transactionStats.get e.aggregate
      = some (counted e (db.transactionStats.get e.aggregate)) := by
  cases hg : db.transactionStats.get e.aggregate with
  | none => exact Table.get_insert_self (a := counted e none) hg
  | some stat =>
      have hk := hr stat hg
      refine (Table.get_modify_self (TransactionStat.set_key _ _)).trans ?_
      rw [hg]
      obtain ⟨c, t, n, total⟩ := stat
      cases hk
      rfl

theorem stats_ne {db : Db} {e : Payload} {k : String × String} (h : e.aggregate ≠ k)
    (row : Option TransactionStat) :
    (db.apply (statWrite e row)).transactionStats.get k = db.transactionStats.get k := by
  cases row with
  | none => exact Table.get_insert_ne (a := counted e none) h
  | some stat => exact Table.get_modify_ne (TransactionStat.set_key _ _) h.symm

/-! ## One step -/

/-- Nothing but the inbox and the rows matters. -/
theorem Rollup.same {db db' : Db} {events : List Payload} (h : Rollup db events)
    (hp : db'.processedEvents = db.processedEvents) (hs : db'.transactionStats
      = db.transactionStats) :
    Rollup db' events where
  distinct := h.distinct
  inbox := by
    rw [hp]
    exact h.inbox
  stats := by
    intro k
    rw [hs]
    exact h.stats k

/-- A write outside the inbox leaves the inbox and the rollup alone. -/
theorem inbox_apply (db : Db) {w : Write} (h : w.area ≠ .inbox) :
    (db.apply w).processedEvents = db.processedEvents
      ∧ (db.apply w).transactionStats = db.transactionStats := by
  cases w with
  | insertProcessed | insertStat | setStat => exact absurd rfl h
  | _ => exact ⟨rfl, rfl⟩

theorem inbox_applyAll (db : Db) {ws : List Write} (h : ∀ w ∈ ws, w.area ≠ .inbox) :
    (db.applyAll ws).processedEvents = db.processedEvents
      ∧ (db.applyAll ws).transactionStats = db.transactionStats := by
  induction ws generalizing db with
  | nil => exact ⟨rfl, rfl⟩
  | cons w ws ih =>
      obtain ⟨hp, hs⟩ := ih (db.apply w) (fun v hv => h v (.tail _ hv))
      obtain ⟨hp', hs'⟩ := inbox_apply db (h w (.head _))
      exact ⟨hp.trans hp', hs.trans hs'⟩

/-- **Filing a new event and counting it from the row that is there** counts it once. -/
theorem Rollup.file {db : Db} {events : List Payload} (h : Rollup db events) {e : Payload}
    (hnew : ¬InInbox db e.transactionId) :
    Rollup (db.applyAll [.insertProcessed ⟨consumerName, e.transactionId⟩,
      statWrite e (db.transactionStats.get e.aggregate)]) (events ++ [e]) := by
  have hstats : ∀ row, (db.apply (.insertProcessed ⟨consumerName, e.transactionId⟩)).apply
      (statWrite e row) = { (db.apply (statWrite e row)) with
        processedEvents := db.processedEvents.insert ⟨consumerName, e.transactionId⟩ } := by
    intro row
    cases row with
    | none => rfl
    | some stat => rfl
  have hid : e.transactionId ∉ events.map Payload.transactionId :=
    fun hm => hnew ((h.recorded _).mpr hm)
  rw [Db.applyAll_cons, Db.applyAll_cons, Db.applyAll_nil, hstats]
  refine ⟨?_, ?_, fun k => ?_⟩
  · rw [List.map_append, List.map_singleton, List.nodup_append]
    refine ⟨h.distinct, by simp, ?_⟩
    intro a ha b hb hab
    rw [List.mem_singleton.mp hb] at hab
    exact hid (hab ▸ ha)
  · have hfree : db.processedEvents.get (consumerName, e.transactionId) = none :=
      Option.not_isSome_iff_eq_none.mp hnew
    rw [List.map_append, List.map_singleton, ← h.inbox]
    exact Table.rows_insert (a := (⟨consumerName, e.transactionId⟩ : ProcessedEvent)) hfree
  · show (db.apply _).transactionStats.get k = _
    by_cases hk : e.aggregate = k
    · subst hk
      rw [stats_self (fun stat hg => Table.key_of_get hg), summary_self, h.stats]
    · rw [stats_ne hk, summary_ne hk, h.stats]

/-! ## What a sequence of deliveries comes to

Events are delivered in any order and more than once. What counts is which of them are
new when they come, and that only as a set.
-/

/-- The events filed after `es` and then `rest`, each at its first delivery. -/
def firsts : List Payload → List Payload → List Payload
  | es, [] => es
  | es, e :: rest =>
      if e.transactionId ∈ es.map Payload.transactionId then firsts es rest else firsts
        (es ++ [e]) rest

/-- How many transactions of a currency and type there are among the events. -/
def countOf (k : String × String) (events : List Payload) : Int :=
  Int.ofNat ((countedFor k events).map Payload.transactionId).dedup.length

/-- What the transactions of a currency and type add up to, each counted once. -/
def totalOf (k : String × String) (events : List Payload) : Int :=
  ((countedFor k events).dedup.map Payload.amount).sum

/-- All events of a transaction are the same. -/
def Agreeing (events : List Payload) : Prop :=
  ∀ e ∈ events, ∀ d ∈ events, e.transactionId = d.transactionId → e = d

/-- The rollup of a set of events: a row for each key that occurs, with its number of
transactions and their sum. -/
structure Aggregated (events : List Payload) (db : Db) : Prop where
  present : ∀ k, (db.transactionStats.get k).isSome = true ↔ ∃ e ∈ events, e.aggregate = k
  sums : ∀ k row, db.transactionStats.get k = some row →
    row.count = countOf k events ∧ row.totalAmount = totalOf k events

theorem mem_ids_firsts (es rest : List Payload) (id : Uuid) :
    id ∈ (firsts es rest).map Payload.transactionId
      ↔ id ∈ es.map Payload.transactionId ∨ id ∈ rest.map Payload.transactionId := by
  induction rest generalizing es with
  | nil => simp [firsts]
  | cons e rest ih =>
      rw [firsts]
      by_cases he : e.transactionId ∈ es.map Payload.transactionId
      · rw [if_pos he, ih, List.map_cons, List.mem_cons]
        constructor
        · exact fun h => h.imp_right .inr
        · rintro (h | rfl | h)
          · exact .inl h
          · exact .inl he
          · exact .inr h
      · rw [if_neg he, ih, List.map_append, List.mem_append, List.map_singleton, List.mem_singleton,
          List.map_cons, List.mem_cons, or_assoc]

/-- If the events of a transaction agree, no event is lost by keeping only the first. -/
theorem mem_firsts {es rest : List Payload} (h : Agreeing (es ++ rest)) (d : Payload) :
    d ∈ firsts es rest ↔ d ∈ es ∨ d ∈ rest := by
  induction rest generalizing es with
  | nil => simp [firsts]
  | cons e rest ih =>
      have hsplit : es ++ e :: rest = (es ++ [e]) ++ rest := by simp
      rw [firsts]
      by_cases he : e.transactionId ∈ es.map Payload.transactionId
      · obtain ⟨x, hx, hid⟩ := List.mem_map.mp he
        have hxe : x = e := h x (by simp [hx]) e (by simp) hid
        subst hxe
        rw [if_pos he, ih (fun a ha b hb => h a (by simp at ha ⊢; tauto) b
          (by simp at hb ⊢; tauto)),
          List.mem_cons]
        constructor
        · exact fun h => h.imp_right .inr
        · rintro (h | rfl | h)
          · exact .inl h
          · exact .inl hx
          · exact .inr h
      · rw [if_neg he, ih (hsplit ▸ h), List.mem_append, List.mem_singleton,
          List.mem_cons, or_assoc]

theorem nodup_firsts {es : List Payload} (h : (es.map Payload.transactionId).Nodup)
    (rest : List Payload) : ((firsts es rest).map Payload.transactionId).Nodup := by
  induction rest generalizing es with
  | nil => exact h
  | cons e rest ih =>
      rw [firsts]
      by_cases he : e.transactionId ∈ es.map Payload.transactionId
      · rw [if_pos he]
        exact ih h
      · rw [if_neg he]
        refine ih ?_
        rw [List.map_append, List.map_singleton, List.nodup_append]
        refine ⟨h, by simp, ?_⟩
        intro a ha b hb hab
        rw [List.mem_singleton.mp hb] at hab
        exact he (hab ▸ ha)

theorem firsts_append (es rest rest' : List Payload) :
    firsts es (rest ++ rest') = firsts (firsts es rest) rest' := by
  induction rest generalizing es with
  | nil => rfl
  | cons e rest ih =>
      rw [List.cons_append, firsts, firsts]
      by_cases he : e.transactionId ∈ es.map Payload.transactionId
      · rw [if_pos he, if_pos he]
        exact ih es
      · rw [if_neg he, if_neg he]
        exact ih _

theorem firsts_snoc {es rest : List Payload} {e : Payload}
    (h : e.transactionId ∉ (firsts es rest).map Payload.transactionId) :
    firsts es (rest ++ [e]) = firsts es rest ++ [e] := by
  rw [firsts_append, firsts, if_neg h]
  rfl

theorem mem_countedFor {k : String × String} {events : List Payload} {e : Payload} :
    e ∈ countedFor k events ↔ e ∈ events ∧ e.aggregate = k := by
  unfold countedFor
  simp

theorem nodup_countedFor {es : List Payload} (h : (es.map Payload.transactionId).Nodup)
    (k : String × String) : ((countedFor k es).map Payload.transactionId).Nodup :=
  (List.filter_sublist.map _).nodup h

section tally

variable {es events : List Payload}

/-- The number of transactions is that of any list with each of them once. -/
theorem countOf_eq (hd : (es.map Payload.transactionId).Nodup) (hmem : ∀ e, e ∈ es ↔ e ∈ events)
    (k : String × String) : countOf k events = Int.ofNat (countedFor k es).length := by
  have hperm : ((countedFor k events).map Payload.transactionId).dedup.Perm
      ((countedFor k es).map Payload.transactionId) := by
    refine (List.perm_ext_iff_of_nodup (List.nodup_dedup _)
      (nodup_countedFor hd k)).mpr (fun id => ?_)
    rw [List.mem_dedup, List.mem_map, List.mem_map]
    refine exists_congr (fun e => and_congr_left (fun _ => ?_))
    rw [mem_countedFor, mem_countedFor, hmem]
  unfold countOf
  rw [hperm.length_eq, List.length_map]

theorem totalOf_eq (hd : (es.map Payload.transactionId).Nodup) (hmem : ∀ e, e ∈ es ↔ e ∈ events)
    (k : String × String) : totalOf k events = ((countedFor k es).map Payload.amount).sum := by
  have hperm : (countedFor k events).dedup.Perm (countedFor k es) := by
    refine (List.perm_ext_iff_of_nodup (List.nodup_dedup _)
      (nodup_countedFor hd k).of_map).mpr (fun e => ?_)
    rw [List.mem_dedup, mem_countedFor, mem_countedFor, hmem]
  exact (hperm.map _).sum_eq

/-- **The row of a key** says how many of its transactions there are and what they add up to. -/
theorem summary_aggregated (hd : (es.map Payload.transactionId).Nodup)
    (hmem : ∀ e, e ∈ es ↔ e ∈ events)
    (k : String × String) :
    ((summary es k).isSome = true ↔ ∃ e ∈ events, e.aggregate = k)
      ∧ ∀ row, summary es k = some row →
        row.count = countOf k events ∧ row.totalAmount = totalOf k events := by
  have hocc : (∃ e ∈ events, e.aggregate = k) ↔ countedFor k es ≠ [] := by
    rw [Ne, List.eq_nil_iff_forall_not_mem, not_forall_not]
    refine exists_congr (fun e => ?_)
    rw [mem_countedFor, hmem]
  rw [hocc, countOf_eq hd hmem, totalOf_eq hd hmem]
  unfold summary
  cases countedFor k es with
  | nil => simp
  | cons e rest =>
      refine ⟨by simp, fun row hrow => ?_⟩
      cases hrow
      exact ⟨rfl, rfl⟩

theorem Rollup.aggregated {db : Db} (h : Rollup db es) (hmem : ∀ e, e ∈ es ↔ e ∈ events) :
    Aggregated events db where
  present := by
    intro k
    rw [h.stats]
    exact (summary_aggregated h.distinct hmem k).1
  sums := by
    intro k row hrow
    rw [h.stats] at hrow
    exact (summary_aggregated h.distinct hmem k).2 row hrow

end tally

/-- Totals depend on the set of events alone. -/
theorem totalOf_congr {events other : List Payload} (hmem : ∀ e, e ∈ events ↔ e ∈ other)
    (k : String × String) : totalOf k events = totalOf k other := by
  have hsets : (countedFor k events).dedup.Perm (countedFor k other).dedup := by
    refine (List.perm_ext_iff_of_nodup (List.nodup_dedup _) (List.nodup_dedup _)).mpr (fun e => ?_)
    rw [List.mem_dedup, List.mem_dedup, mem_countedFor, mem_countedFor, hmem]
  exact (hsets.map _).sum_eq

/-- Without negative amounts, totals only grow. -/
theorem totalOf_le {events rest : List Payload} (h : ∀ e ∈ rest, 0 ≤ e.amount)
    (hsub : events ⊆ rest)
    (k : String × String) : totalOf k events ≤ totalOf k rest := by
  have hsubset : (countedFor k events).dedup ⊆ (countedFor k rest).dedup := by
    intro e he
    rw [List.mem_dedup, mem_countedFor] at he ⊢
    exact ⟨hsub he.1, he.2⟩
  obtain ⟨l, hperm, hsublist⟩ := List.subperm_of_subset (List.nodup_dedup _) hsubset
  have hl : totalOf k events = (l.map Payload.amount).sum := (hperm.symm.map _).sum_eq
  rw [hl]
  refine (hsublist.map Payload.amount).sum_le_sum (fun a ha => ?_)
  obtain ⟨e, he, rfl⟩ := List.mem_map.mp ha
  rw [List.mem_dedup, mem_countedFor] at he
  exact h e he.1

/-- Where every amount is positive, there are no more transactions than units of money. -/
theorem countOf_le_totalOf {events : List Payload} (h : ∀ e ∈ events, 0 < e.amount)
    (hag : Agreeing events) (k : String × String) : countOf k events ≤ totalOf k events := by
  have hmem : ∀ d, d ∈ firsts [] events ↔ d ∈ [] ∨ d ∈ events := mem_firsts hag
  simp only [List.not_mem_nil, false_or] at hmem
  have hd : ((firsts [] events).map Payload.transactionId).Nodup :=
    @nodup_firsts [] List.nodup_nil events
  rw [countOf_eq hd hmem, totalOf_eq hd hmem]
  have hpos : ∀ e ∈ countedFor k (firsts [] events), 0 < e.amount :=
    fun e he => h e ((hmem e).mp (mem_countedFor.mp he).1)
  generalize countedFor k (firsts [] events) = l at hpos
  induction l with
  | nil => simp
  | cons e l ih =>
      have he := hpos e (.head _)
      have hl := ih (fun d hd => hpos d (.tail _ hd))
      rw [List.map_cons, List.sum_cons, List.length_cons]
      simp only [Int.ofNat_eq_natCast] at hl ⊢
      omega

/-- **The same events, the same rollup**, in whatever order and however often they came. -/
theorem Aggregated.same {events other : List Payload} {db db' : Db} (h : Aggregated events db)
    (h' : Aggregated other db') (hmem : ∀ e, e ∈ events ↔ e ∈ other) (k : String × String) :
    db'.transactionStats.get k = db.transactionStats.get k := by
  have htotal : totalOf k events = totalOf k other := totalOf_congr hmem k
  have hids : ((countedFor k events).map Payload.transactionId).dedup.Perm
      ((countedFor k other).map Payload.transactionId).dedup := by
    refine (List.perm_ext_iff_of_nodup (List.nodup_dedup _) (List.nodup_dedup _)).mpr (fun id => ?_)
    rw [List.mem_dedup, List.mem_dedup, List.mem_map, List.mem_map]
    refine exists_congr (fun e => and_congr_left (fun _ => ?_))
    rw [mem_countedFor, mem_countedFor, hmem]
  have hcount : countOf k events = countOf k other := congrArg Int.ofNat hids.length_eq
  have hpresent : (db'.transactionStats.get k).isSome = true
      ↔ (db.transactionStats.get k).isSome = true := by
    rw [h.present, h'.present]
    exact exists_congr (fun e => by rw [hmem])
  cases hrow : db.transactionStats.get k with
  | none =>
      rw [hrow] at hpresent
      exact Option.not_isSome_iff_eq_none.mp (fun hs => absurd (hpresent.mp hs) (by simp))
  | some row =>
      rw [hrow] at hpresent
      obtain ⟨row', hrow'⟩ := Option.isSome_iff_exists.mp (hpresent.mpr rfl)
      obtain ⟨hc, ht⟩ := h.sums k row hrow
      obtain ⟨hc', ht'⟩ := h'.sums k row' hrow'
      have hkey := (Table.key_of_get hrow).trans (Table.key_of_get hrow').symm
      rw [hrow']
      obtain ⟨c, ty, n, total⟩ := row
      obtain ⟨c', ty', n', total'⟩ := row'
      obtain ⟨rfl, rfl⟩ := Prod.mk.inj hkey
      simp only at hc ht hc' ht'
      rw [hc, ht, hc', ht', hcount, htotal]

end WalletLedger
