import WalletLedger.Proof.Ledger

/-!
# Published means delivered

The publisher hands a batch to the producer, waits in `flush`, and stamps the
batch if no delivery report carried an error. A message that has not been
reported at all when `flush` gives up is not an error, and `flush` says so only in
its return value, which is dropped.

So a stamp stands for a delivery as long as no iteration commits with one of its
own messages still unreported. The contract keeps the books of the producer: who
handed over what, what was reported to whom, and that success is reported only of
acknowledged messages.
-/

namespace WalletLedger

open Isolation Prog

/-- A message carries an event. -/
def Carries (e : OutboxEvent) (m : Message) : Prop :=
  m.key = e.aggregateId ∧ m.value = e.payload ∧ m.eventType = e.eventType

/-- The broker has acknowledged a message that carries the event. -/
def Delivered (o : Outside) (e : OutboxEvent) : Prop :=
  ∃ n h, n ∈ o.acked ∧ o.handed[n]? = some h ∧ Carries e h.msg

/-- Every message session `i` has handed over has been reported back to it. -/
def Answered (i : Sid) (o : Outside) : Prop :=
  ∀ n h, o.handed[n]? = some h → h.sender = i → ∃ r ∈ o.reports, r.index = n ∧ r.caller = i

/-- A commit that goes through finds nothing of its session unreported. -/
def Attentive (o : LedgerObs) : Prop := o.stmt = .commit → o.ok = true → Answered o.sid o.aux

instance (i : Sid) (o : Outside) : Decidable (Answered i o) :=
  decidable_of_iff (∀ p ∈ o.handed.zipIdx, p.1.sender = i →
      ∃ r ∈ o.reports, r.index = p.2 ∧ r.caller = i) (by
    constructor
    · intro h n x hx
      exact h (x, n) (List.mem_zipIdx_iff_getElem?.mpr hx)
    · intro h p hp
      exact h p.2 p.1 (List.mem_zipIdx_iff_getElem?.mp hp))

instance (o : LedgerObs) : Decidable (Attentive o) :=
  inferInstanceAs (Decidable (o.stmt = .commit → o.ok = true → Answered o.sid o.aux))

/-- The columns of an event a message carries are never updated. -/
theorem Carries.stamped {e e' : OutboxEvent} {m : Message} (h : Carries e m)
    (he : { e with publishedAt := e'.publishedAt } = e') : Carries e' m := by
  rw [← he]
  exact h

/-! ## What commits do to stamps -/

theorem published_apply {db : Db} {w : Write} (hw : ∀ e, w = .insertEvent e → e.publishedAt = none)
    {e : OutboxEvent} (he : e ∈ (db.apply w).outboxEvents.rows) (hp : e.publishedAt ≠ none) :
    (∃ e₀ ∈ db.outboxEvents.rows, e₀.publishedAt ≠ none
        ∧ { e₀ with publishedAt := e.publishedAt } = e)
      ∨ ∃ t, w = .setPublished e.id t := by
  cases w with
  | insertEvent x =>
      rcases Table.mem_of_mem_insert he with he | rfl
      · exact .inl ⟨e, he, hp, rfl⟩
      · exact absurd (hw e rfl) hp
  | setPublished id t =>
      obtain ⟨e₀, he₀, heq⟩ := List.mem_map.mp he
      by_cases hid : e₀.id = id
      · rw [if_pos hid] at heq
        subst heq
        exact .inr ⟨t, by rw [← hid]; rfl⟩
      · rw [if_neg hid] at heq
        subst heq
        exact .inl ⟨e₀, he₀, hp, rfl⟩
  | _ => exact .inl ⟨e, he, hp, rfl⟩

/-- An event is published after a commit if it was before, or if the commit stamps it. -/
theorem published_applyAll {db : Db} {ws : List Write}
    (hws : ∀ e, .insertEvent e ∈ ws → e.publishedAt = none) {e : OutboxEvent}
    (he : e ∈ (db.applyAll ws).outboxEvents.rows) (hp : e.publishedAt ≠ none) :
    (∃ e₀ ∈ db.outboxEvents.rows, e₀.publishedAt ≠ none
        ∧ { e₀ with publishedAt := e.publishedAt } = e)
      ∨ ∃ t, .setPublished e.id t ∈ ws := by
  induction ws generalizing db with
  | nil => exact .inl ⟨e, he, hp, rfl⟩
  | cons w ws ih =>
      rcases ih (fun x hx => hws x (by simp [hx])) he with ⟨e₁, he₁, hp₁, heq₁⟩ | ⟨t, ht⟩
      · have hw : ∀ x, w = .insertEvent x → x.publishedAt = none :=
          fun x hx => hws x (by simp [hx])
        have hid : e₁.id = e.id := by rw [← heq₁]
        rcases published_apply hw he₁ hp₁ with ⟨e₀, he₀, hp₀, heq₀⟩ | ⟨t, ht⟩
        · refine .inl ⟨e₀, he₀, hp₀, ?_⟩
          rw [← heq₁, ← heq₀]
        · exact .inr ⟨t, by simp [ht, hid]⟩
      · exact .inr ⟨t, by simp [ht]⟩

/-! ## The contract of the producer -/

/-- The producer's side has moved without session `i`. -/
structure Others (i : Sid) (o o' : Outside) : Prop where
  handed : ∃ l, o'.handed = o.handed ++ l ∧ ∀ h ∈ l, h.sender ≠ i
  reports : ∃ l, o'.reports = o.reports ++ l ∧ ∀ r ∈ l, r.caller ≠ i
  acked : o.acked ⊆ o'.acked

namespace Others

variable {i : Sid} {o o' o'' : Outside}

theorem ofSame (h : o.SameSent o') : Others i o o' where
  handed := ⟨[], by rw [h.handed, List.append_nil], by simp⟩
  reports := ⟨[], by rw [h.reports, List.append_nil], by simp⟩
  acked := by rw [h.acked]; exact fun _ h => h

theorem trans (h₁ : Others i o o') (h₂ : Others i o' o'') : Others i o o'' where
  handed := by
    obtain ⟨l₁, e₁, n₁⟩ := h₁.handed
    obtain ⟨l₂, e₂, n₂⟩ := h₂.handed
    refine ⟨l₁ ++ l₂, by rw [e₂, e₁, List.append_assoc], fun h hh => ?_⟩
    rcases List.mem_append.mp hh with hh | hh
    · exact n₁ h hh
    · exact n₂ h hh
  reports := by
    obtain ⟨l₁, e₁, n₁⟩ := h₁.reports
    obtain ⟨l₂, e₂, n₂⟩ := h₂.reports
    refine ⟨l₁ ++ l₂, by rw [e₂, e₁, List.append_assoc], fun r hr => ?_⟩
    rcases List.mem_append.mp hr with hr | hr
    · exact n₁ r hr
    · exact n₂ r hr
  acked := fun _ hn => h₂.acked (h₁.acked hn)

end Others

/-- What has been delivered stays delivered. -/
theorem Delivered.mono {i : Sid} {o o' : Outside} {e : OutboxEvent} (h : Delivered o e)
    (ho : Others i o o') : Delivered o' e := by
  obtain ⟨n, x, hn, hx, hc⟩ := h
  obtain ⟨l, hl, -⟩ := ho.handed
  exact ⟨n, x, ho.acked hn, by rw [hl]; exact getElem?_of_append l hx, hc⟩

/-- The invariant of the producer's side. -/
structure Shipped (s : LedgerStore) : Prop where
  /-- Success is reported only of acknowledged messages. -/
  success : ∀ r ∈ s.aux.reports, r.err = none → r.index ∈ s.aux.acked
  senders : ∀ h ∈ s.aux.handed, ∃ o ∈ s.trace, o.sid = h.sender
  callers : ∀ r ∈ s.aux.reports, ∃ o ∈ s.trace, o.sid = r.caller
  /-- As long as commits have been attentive, a stamp stands for a delivery. -/
  delivered : (∀ o ∈ s.trace, Attentive o) → ∀ e ∈ s.db.outboxEvents.rows, e.publishedAt ≠ none →
    Delivered s.aux e

/-- A write that stamps nothing. -/
def Write.Unstamping (w : Write) : Prop :=
  w.area ≠ .stamp ∧ ∀ e, w = .insertEvent e → e.publishedAt = none

/-- Session `i` has no stamp buffered. -/
def Unstamping (i : Sid) (s : LedgerStore) : Prop := ∀ w ∈ s.pending i, w.Unstamping

/-- The contract of the producer. -/
def shipping : Contract Db Write Res Outside Stmt Inp Exn Request Reply where
  rely i s s' := Others i s.aux s'.aux
  inv := Shipped
  post i t _ s := t = .analyticsConsumer → Unstamping i s

theorem shipping_preorder : shipping.Preorder where
  refl := fun _ s => .ofSame (.refl s.aux)
  trans := fun h₁ h₂ => h₁.trans h₂

section

variable {i : Sid} {t : Request} {q : Stmt} {inp : Inp} {s s' : LedgerStore} {r : Except Exn q.Ans}
  {β : Type}

theorem Unstamping.stable : Stable engine shipping i (Unstamping i) := by
  intro s s' h hr
  unfold Unstamping
  rw [hr.frame.pending]
  exact h

/-- The producer's side may move and the history grow; only the stamps need a thought. -/
theorem Shipped.step (hi : Shipped s) {j : Sid} (ho : Others j s.aux s'.aux)
    {l : List LedgerObs} (htr : s'.trace = s.trace ++ l)
    (hsucc : ∀ r ∈ s'.aux.reports, r.err = none → r.index ∈ s'.aux.acked)
    (hsend : ∀ h ∈ s'.aux.handed, h ∈ s.aux.handed ∨ ∃ o ∈ l, o.sid = h.sender)
    (hcall : ∀ r ∈ s'.aux.reports, r ∈ s.aux.reports ∨ ∃ o ∈ l, o.sid = r.caller)
    (hnew : (∀ o ∈ s'.trace, Attentive o) → ∀ e ∈ s'.db.outboxEvents.rows, e.publishedAt ≠ none →
      Delivered s'.aux e ∨ ∃ e₀ ∈ s.db.outboxEvents.rows, e₀.publishedAt ≠ none
        ∧ { e₀ with publishedAt := e.publishedAt } = e) : Shipped s' where
  success := hsucc
  senders := by
    intro h hh
    rw [htr]
    rcases hsend h hh with hh | ⟨o, ho, he⟩
    · obtain ⟨o, ho, he⟩ := hi.senders h hh
      exact ⟨o, List.mem_append_left _ ho, he⟩
    · exact ⟨o, List.mem_append_right _ ho, he⟩
  callers := by
    intro r hr
    rw [htr]
    rcases hcall r hr with hr | ⟨o, ho, he⟩
    · obtain ⟨o, ho, he⟩ := hi.callers r hr
      exact ⟨o, List.mem_append_left _ ho, he⟩
    · exact ⟨o, List.mem_append_right _ ho, he⟩
  delivered := by
    intro hatt e he hp
    rcases hnew hatt e he hp with hd | ⟨e₀, he₀, hp₀, heq⟩
    · exact hd
    · have hatt₀ : ∀ o ∈ s.trace, Attentive o := by
        intro o ho
        exact hatt o (by rw [htr]; exact List.mem_append_left _ ho)
      obtain ⟨n, x, hn, hx, hc⟩ := (hi.delivered hatt₀ e₀ he₀ hp₀).mono ho
      exact ⟨n, x, hn, hx, hc.stamped heq⟩

/-- The same when the producer's side stays as it is. -/
theorem Shipped.idle (hi : Shipped s) (hs : s.aux.SameSent s'.aux) {l : List LedgerObs}
    (htr : s'.trace = s.trace ++ l)
    (hnew : (∀ o ∈ s'.trace, Attentive o) → ∀ e ∈ s'.db.outboxEvents.rows, e.publishedAt ≠ none →
      Delivered s'.aux e ∨ ∃ e₀ ∈ s.db.outboxEvents.rows, e₀.publishedAt ≠ none
        ∧ { e₀ with publishedAt := e.publishedAt } = e) : Shipped s' := by
  refine hi.step (j := 0) (.ofSame hs) htr ?_ ?_ ?_ hnew
  · rw [hs.reports, hs.acked]; exact hi.success
  · rw [hs.handed]; exact fun h hh => .inl hh
  · rw [hs.reports]; exact fun r hr => .inl hr

/-- Statements outside the producer keep the contract, commits apart. -/
theorem guar_outside (hi : Shipped s) (hx : exec engine i t q inp s = some (r, s'))
    (hc : q ≠ .commit) (hq : q.area ≠ .send) : Guar engine shipping i s s' := by
  obtain ⟨e, he, -, haux, hdb, -⟩ := exec_quiet hx hc
  have hs : s.aux.SameSent s'.aux := by
    rw [haux]
    exact (run_within he).sent hq
  refine ⟨fun j _ => .ofSame hs, hi.idle hs (exec_trace hx) ?_⟩
  intro _ x hx hp
  rw [hdb] at hx
  exact .inr ⟨x, hx, hp, rfl⟩

/-- **A commit keeps the contract if whatever it stamps has been delivered**, provided the
session got an answer to everything it has sent. -/
theorem guar_shipment {r : Except Exn Unit} (hi : Shipped s)
    (hx : exec engine i t .commit inp s = some (r, s'))
    (hins : ∀ e, .insertEvent e ∈ s.pending i → e.publishedAt = none)
    (hst : Answered i s.aux → ∀ e now, .setPublished e.id now ∈ s.pending i →
      e ∈ (s.db.applyAll (s.pending i)).outboxEvents.rows → Delivered s.aux e) :
    Guar engine shipping i s s' := by
  obtain ⟨haux, -, hout⟩ := exec_commit hx
  have hs : s.aux.SameSent s'.aux := by rw [haux]; exact .refl _
  refine ⟨fun j _ => .ofSame hs, hi.idle hs (exec_trace hx) ?_⟩
  intro hatt e he hp
  rcases hout with ⟨_, -, -, hdb, -⟩ | ⟨-, hr, hdb, -⟩
  · rw [hdb] at he
    exact .inr ⟨e, he, hp, rfl⟩
  · rw [hdb] at he
    rcases published_applyAll hins he hp with hold | ⟨now, hnow⟩
    · exact .inr hold
    · left
      rw [haux]
      refine hst ?_ e now hnow he
      have hobs := hatt ⟨i, t, .commit, inp, s.db, s.aux, r.isOk, s.commits.length⟩
        (by rw [exec_trace hx]; simp)
      exact hobs rfl (by rw [hr]; rfl)

/-! ## Everybody but the publisher -/

/-- Statements outside the publisher's areas buffer no stamps. -/
theorem Unstamping.exec (h : Unstamping i s) (hx : exec engine i t q inp s = some (r, s'))
    (hq : q.area ≠ .stamp) : Unstamping i s' := by
  by_cases hc : q = .commit
  · subst hc
    obtain ⟨-, hpend, -⟩ := exec_commit hx
    unfold Unstamping
    rw [hpend]
    simp
  · obtain ⟨e, he, -, -, -, -, hpend⟩ := exec_quiet hx hc
    unfold Unstamping
    rcases hpend with hpend | hpend
    · rw [hpend]
      intro w hw
      rcases List.mem_append.mp hw with hw | hw
      · exact h w hw
      · rcases (run_within he).writes with h₀ | ⟨w', h₁, hwr, -⟩
        · rw [h₀] at hw
          exact absurd hw (by simp)
        · rw [h₁, List.mem_singleton] at hw
          subst hw
          refine ⟨by rw [Stmt.write_area hwr]; exact hq, fun x hx => ?_⟩
          subst hx
          cases q <;> simp only [Stmt.write, Option.some.injEq, reduceCtorEq,
            Write.insertEvent.injEq] at hwr
          rw [← hwr]
    · rw [hpend]
      simp

/-- **Whoever stays out of the publisher's areas keeps the contract.** -/
theorem triple_bystander {p : Tx β} (hp : p.Uses (fun q => q.area ≠ .stamp ∧ q.area ≠ .send)) :
    Triple engine shipping i t (Unstamping i) p (fun _ => Unstamping i) := by
  refine .uses hp Unstamping.stable ?_
  rintro q ⟨hst, hsend⟩ s inp r s' hi hu hx
  refine ⟨?_, hu.exec hx hst⟩
  by_cases hc : q = .commit
  · subst hc
    refine guar_shipment hi hx (fun e he => (hu _ he).2 e rfl) ?_
    intro _ e now hmem _
    exact absurd rfl (hu _ hmem).1
  · exact guar_outside hi hx hc hsend

/-- Reads, rollbacks and the like are always fine. -/
theorem triple_aside {p : Tx β} {Q : Except Exn β → LedgerStore → Prop} (hQ : ∀ r s, Q r s)
    (hp : p.Uses (fun q => q ≠ .commit ∧ q.area ≠ .send)) :
    Triple engine shipping i t (fun _ => True) p Q := by
  refine (Triple.uses hp (A := fun _ => True) (fun _ _ h _ => h) ?_).conseq (fun _ _ h => h)
    (fun r s _ => hQ r s)
  rintro q ⟨hc, hsend⟩ s inp r s' hi - hx
  exact ⟨guar_outside hi hx hc hsend, trivial⟩

/-! ## The publisher -/

/-- A publisher iteration that has fetched `events`, handed over `sent`, and collected
`errors` from the reports that fired during its calls. -/
structure Batch (i : Sid) (events sent : List OutboxEvent) (errors : List Nat) (s : LedgerStore) :
    Prop where
  stamps : ∀ w ∈ s.pending i, ∃ e ∈ sent, ∃ now, w = .setPublished e.id now
  rows : ∀ e ∈ events, ∃ e', s.db.outboxEvents.get e.id = some e'
    ∧ { e with publishedAt := e'.publishedAt } = e'
  handed : ∀ e ∈ sent, ∃ (n : Nat) (h : Handed), s.aux.handed[n]? = some h ∧ h.sender = i
    ∧ Carries e h.msg
  reports : errors = [] → ∀ r ∈ s.aux.reports, r.caller = i → r.err = none

variable {events sent : List OutboxEvent} {errors : List Nat}

theorem Batch.stable : Stable engine shipping i (Batch i events sent errors) := by
  intro s s' h hr
  have ho : Others i s.aux s'.aux := hr.rely
  obtain ⟨l, hl, -⟩ := ho.handed
  obtain ⟨l', hl', hn'⟩ := ho.reports
  obtain ⟨cs, -, hdb, -⟩ := hr.frame.commits
  refine ⟨by rw [hr.frame.pending]; exact h.stamps, ?_, ?_, ?_⟩
  · intro e he
    obtain ⟨e', he', heq⟩ := h.rows e he
    have hgrow : s.db.Grows s'.db := by rw [hdb]; exact .applyAll _ _
    obtain ⟨e'', he'', heq'⟩ := hgrow.events e.id e' he'
    exact ⟨e'', he'', by rw [← heq', ← heq]⟩
  · intro e he
    obtain ⟨n, x, hx, hs, hc⟩ := h.handed e he
    exact ⟨n, x, by rw [hl]; exact getElem?_of_append l hx, hs, hc⟩
  · intro herr r hr' hcall
    rw [hl', List.mem_append] at hr'
    rcases hr' with hr' | hr'
    · exact h.reports herr r hr' hcall
    · exact absurd hcall (hn' r hr')

/-- What a call of the producer that goes through does: it takes messages of the caller and
fires reports at it. -/
structure Sends (i : Sid) (o o' : Outside) (msgs : List Message) (fired : List (Nat × Option Nat)) :
    Prop where
  handed : ∃ producer, o'.handed = o.handed ++ msgs.map (fun m => ⟨producer, i, m⟩)
  reports : o'.reports = o.reports ++ fired.map (fun r => ⟨i, r.1, r.2⟩)
  acked : o'.acked = o.acked
  success : ∀ r ∈ fired, r.2 = none → r.1 ∈ o.acked

theorem runProduce_sends {producer : Nat} {msg : Message} {o : Outside}
    {e : Effect Write Res Outside Exn (List (Option Nat))}
    (h : runProduce inp i o producer msg = some e) {a : List (Option Nat)} (ha : e.ans = .ok a) :
    Sends i o e.aux [msg] inp.reports ∧ a = inp.reports.map Prod.snd := by
  rcases runProduce_cases h with ⟨c, -, rfl⟩ | ⟨o', hfire, rfl⟩
  · exact absurd ha (by simp [kafkaFailed])
  · obtain ⟨ho', hsucc⟩ := fire_eq hfire
    cases ha
    exact ⟨⟨⟨producer, by rw [ho']; rfl⟩, by rw [ho'], by rw [ho'], hsucc⟩, rfl⟩

theorem runFlush_sends {producer : Nat} {o : Outside}
    {e : Effect Write Res Outside Exn (List (Option Nat) × Nat)}
    (h : runFlush inp i o producer = some e) {a : List (Option Nat) × Nat} (ha : e.ans = .ok a) :
    Sends i o e.aux [] inp.reports ∧ a.1 = inp.reports.map Prod.snd := by
  rcases runFlush_cases h with ⟨c, -, rfl⟩ | ⟨o', hfire, rfl⟩
  · exact absurd ha (by simp [kafkaFailed])
  · obtain ⟨ho', hsucc⟩ := fire_eq hfire
    cases ha
    exact ⟨⟨⟨producer, by rw [ho']; simp⟩, by rw [ho'], by rw [ho'], hsucc⟩, rfl⟩

/-- Collecting no error from reports means that all of them were successes. -/
theorem onDelivery_nil {fired : List (Nat × Option Nat)}
    (h : OutboxPublisher.onDelivery errors (fired.map Prod.snd) = []) :
    errors = [] ∧ ∀ r ∈ fired, r.2 = none := by
  unfold OutboxPublisher.onDelivery at h
  obtain ⟨h₁, h₂⟩ := List.append_eq_nil_iff.mp h
  refine ⟨h₁, fun r hr => ?_⟩
  rw [List.filterMap_eq_nil_iff] at h₂
  exact h₂ r.2 (List.mem_map_of_mem hr)

/-- A call of the producer keeps the contract, and the session's account of its batch. -/
theorem Batch.sends {fired : List (Nat × Option Nat)} {e : List OutboxEvent} (topic : String)
    (hi : Shipped s) (hb : Batch i events sent errors s) {ok : Bool}
    (hsend : Sends i s.aux s'.aux (e.map (OutboxPublisher.message topic)) fired)
    (hpend : s'.pending i ⊆ s.pending i) (hdb : s'.db = s.db)
    (htr : s'.trace = s.trace ++ [⟨i, t, q, inp, s.db, s.aux, ok, s.commits.length⟩]) :
    Guar engine shipping i s s'
      ∧ Batch i events (sent ++ e) (OutboxPublisher.onDelivery errors (fired.map Prod.snd)) s' := by
  obtain ⟨producer, hh⟩ := hsend.handed
  have hothers : ∀ j, j ≠ i → Others j s.aux s'.aux := by
    intro j hj
    refine ⟨⟨_, hh, ?_⟩, ⟨_, hsend.reports, ?_⟩, by rw [hsend.acked]; exact fun _ h => h⟩
    · intro h hmem
      obtain ⟨m, -, rfl⟩ := List.mem_map.mp hmem
      exact hj.symm
    · intro r hmem
      obtain ⟨m, -, rfl⟩ := List.mem_map.mp hmem
      exact hj.symm
  refine ⟨⟨hothers, ?_⟩, ?_, ?_, ?_, ?_⟩
  · refine hi.step (j := i + 1) (hothers _ (Nat.succ_ne_self i)) htr ?_ ?_ ?_ ?_
    · intro r hr herr
      rw [hsend.acked]
      rw [hsend.reports, List.mem_append] at hr
      rcases hr with hr | hr
      · exact hi.success r hr herr
      · obtain ⟨p, hp, rfl⟩ := List.mem_map.mp hr
        exact hsend.success p hp herr
    · intro h hmem
      rw [hh, List.mem_append] at hmem
      rcases hmem with hmem | hmem
      · exact .inl hmem
      · obtain ⟨m, -, rfl⟩ := List.mem_map.mp hmem
        exact .inr ⟨_, List.mem_singleton.mpr rfl, rfl⟩
    · intro r hmem
      rw [hsend.reports, List.mem_append] at hmem
      rcases hmem with hmem | hmem
      · exact .inl hmem
      · obtain ⟨m, -, rfl⟩ := List.mem_map.mp hmem
        exact .inr ⟨_, List.mem_singleton.mpr rfl, rfl⟩
    · intro _ x hx hp
      rw [hdb] at hx
      exact .inr ⟨x, hx, hp, rfl⟩
  · intro w hw
    obtain ⟨x, hx, now, heq⟩ := hb.stamps w (hpend hw)
    exact ⟨x, List.mem_append_left _ hx, now, heq⟩
  · rw [hdb]
    exact hb.rows
  · intro x hx
    rcases List.mem_append.mp hx with hx | hx
    · obtain ⟨n, h, hn, hs, hc⟩ := hb.handed x hx
      exact ⟨n, h, by rw [hh]; exact getElem?_of_append _ hn, hs, hc⟩
    · -- the message of `x` sits behind everything handed over before
      have hmem : (⟨producer, i, OutboxPublisher.message topic x⟩ : Handed) ∈ s'.aux.handed := by
        rw [hh]
        refine List.mem_append_right _ (List.mem_map.mpr ⟨_, List.mem_map_of_mem hx, rfl⟩)
      obtain ⟨n, hn⟩ := List.getElem?_of_mem hmem
      exact ⟨n, _, hn, rfl, rfl, rfl, rfl⟩
  · intro herr r hr hcall
    obtain ⟨herr₀, hfired⟩ := onDelivery_nil herr
    rw [hsend.reports, List.mem_append] at hr
    rcases hr with hr | hr
    · exact hb.reports herr₀ r hr hcall
    · obtain ⟨p, hp, rfl⟩ := List.mem_map.mp hr
      exact hfired p hp

/-- A value satisfying `P`, or any exception. -/
def Else {γ : Type} (P : γ → LedgerStore → Prop) : Except Exn γ → LedgerStore → Prop
  | .ok a => P a
  | .error _ => fun _ => True

theorem Else.stable {γ : Type} {P : γ → LedgerStore → Prop}
    (hP : ∀ a, Stable engine shipping i (P a)) (r : Except Exn γ) :
    Stable engine shipping i (Else P r) := by
  cases r with
  | ok a => exact hP a
  | error e => exact fun _ _ _ _ => trivial

theorem triple_then {γ : Type} {A : LedgerStore → Prop} {P : β → LedgerStore → Prop}
    {P' : γ → LedgerStore → Prop} {p : Tx β} {f : β → Tx γ}
    (hp : Triple engine shipping i t A p (Else P))
    (hf : ∀ a, Triple engine shipping i t (P a) (f a) (Else P')) :
    Triple engine shipping i t A (p >>= f) (Else P') :=
  .bind shipping_preorder hp hf
    (fun _ => .raise (fun _ _ _ _ => trivial) (fun _ _ _ => trivial))

/-- A call of the producer that raises has done nothing. -/
theorem guar_unsent (hi : Shipped s) (hx : exec engine i t q inp s = some (r, s'))
    (hc : q ≠ .commit) (hs : s'.aux = s.aux) : Guar engine shipping i s s' := by
  obtain ⟨_, -, -, -, hdb, -⟩ := exec_quiet hx hc
  have hsame : s.aux.SameSent s'.aux := by rw [hs]; exact .refl _
  refine ⟨fun j _ => .ofSame hsame, hi.idle hsame (exec_trace hx) ?_⟩
  intro _ x hx hp
  rw [hdb] at hx
  exact .inr ⟨x, hx, hp, rfl⟩

/-- A call of the producer that raises has done nothing. -/
theorem runProduce_error {producer : Nat} {msg : Message} {o : Outside} {x : Exn}
    {e : Effect Write Res Outside Exn (List (Option Nat))}
    (h : runProduce inp i o producer msg = some e) (ha : e.ans = .error x) :
    inp.kafkaFault ≠ none ∧ e.aux = o := by
  rcases runProduce_cases h with ⟨c, hc, rfl⟩ | ⟨o', -, rfl⟩
  · exact ⟨by simp [hc], rfl⟩
  · exact absurd ha (by simp)

theorem runFlush_error {producer : Nat} {o : Outside} {x : Exn}
    {e : Effect Write Res Outside Exn (List (Option Nat) × Nat)}
    (h : runFlush inp i o producer = some e) (ha : e.ans = .error x) :
    inp.kafkaFault ≠ none ∧ e.aux = o := by
  rcases runFlush_cases h with ⟨c, hc, rfl⟩ | ⟨o', -, rfl⟩
  · exact ⟨by simp [hc], rfl⟩
  · exact absurd ha (by simp)

theorem triple_produce {producer : Nat} {topic : String} {e : OutboxEvent} :
    Triple engine shipping i t (Batch i events sent errors)
      (query (.produce producer (OutboxPublisher.message topic e)))
      (Else (fun rs => Batch i events (sent ++ [e]) (OutboxPublisher.onDelivery errors rs))) := by
  refine .perform Batch.stable (Else.stable (fun _ => Batch.stable)) ?_
  intro s inp r s' hi hb hx
  obtain ⟨eff, he, hr, haux, hdb, -⟩ := exec_quiet hx (by simp)
  have hpend := pending_subset hx (by simp) (fun _ _ => rfl)
  cases r with
  | ok a =>
      obtain ⟨hsend, rfl⟩ := runProduce_sends he hr.symm
      rw [← haux] at hsend
      exact hb.sends (e := [e]) topic hi hsend hpend hdb (exec_trace hx)
  | error x =>
      have hsame : s'.aux = s.aux := haux.trans (runProduce_error he hr.symm).2
      exact ⟨guar_unsent hi hx (by simp) hsame, trivial⟩

theorem triple_flush {producer : Nat} :
    Triple engine shipping i t (Batch i events sent errors) (query (.flush producer))
      (Else (fun a => Batch i events sent (OutboxPublisher.onDelivery errors a.1))) := by
  refine .perform Batch.stable (Else.stable (fun _ => Batch.stable)) ?_
  intro s inp r s' hi hb hx
  obtain ⟨eff, he, hr, haux, hdb, -⟩ := exec_quiet hx (by simp)
  have hpend := pending_subset hx (by simp) (fun _ _ => rfl)
  cases r with
  | ok a =>
      obtain ⟨hsend, ha⟩ := runFlush_sends he hr.symm
      rw [← haux] at hsend
      obtain ⟨hg, hb'⟩ := hb.sends (e := []) "" hi hsend hpend hdb (exec_trace hx)
      rw [List.append_nil, ← ha] at hb'
      exact ⟨hg, hb'⟩
  | error x =>
      have hsame : s'.aux = s.aux := haux.trans (runFlush_error he hr.symm).2
      exact ⟨guar_unsent hi hx (by simp) hsame, trivial⟩

theorem triple_produceAll {producer : Nat} {topic : String} {l : List OutboxEvent} :
    Triple engine shipping i t (Batch i events sent errors)
      (OutboxPublisher.produceAll producer topic l errors)
      (Else (fun errors => Batch i events (sent ++ l) errors)) := by
  induction l generalizing sent errors with
  | nil => exact .ret Batch.stable (fun s _ h => by simpa [Else] using h)
  | cons e l ih =>
      refine triple_then triple_produce (fun rs => ?_)
      refine ih.conseq (fun _ _ h => h) (fun r s h => ?_)
      cases r with
      | ok a => simpa [Else] using h
      | error x => trivial

/-- Statements that buffer at most a stamp of the batch keep the account of the batch. -/
theorem triple_batch (hq : q.area ≠ .send) (hc : q ≠ .commit)
    (hw : ∀ inp o w, q.write inp o = some w → ∃ e ∈ sent, ∃ now, w = .setPublished e.id now) :
    Triple engine shipping i t (Batch i events sent errors) (query q)
      (Else (fun _ => Batch i events sent errors)) := by
  refine .perform Batch.stable (Else.stable (fun _ => Batch.stable)) ?_
  intro s inp r s' hi hb hx
  refine ⟨guar_outside hi hx hc hq, ?_⟩
  cases r with
  | error x => trivial
  | ok a =>
      obtain ⟨e, he, -, haux, hdb, -, hpend⟩ := exec_quiet hx hc
      have hs : s.aux.SameSent s'.aux := by
        rw [haux]
        exact (run_within he).sent hq
      refine ⟨?_, by rw [hdb]; exact hb.rows, by rw [hs.handed]; exact hb.handed,
        by rw [hs.reports]; exact hb.reports⟩
      intro w hmem
      rcases hpend with hpend | hpend
      · rw [hpend, List.mem_append] at hmem
        rcases hmem with hmem | hmem
        · exact hb.stamps w hmem
        · rcases (run_within he).writes with h₀ | ⟨w', h₁, hwr, -⟩
          · rw [h₀] at hmem
            exact absurd hmem (by simp)
          · rw [h₁, List.mem_singleton] at hmem
            subst hmem
            exact hw _ _ _ hwr
      · rw [hpend] at hmem
        exact absurd hmem (by simp)

theorem triple_markAll {l : List OutboxEvent} (hl : l ⊆ sent) :
    Triple engine shipping i t (Batch i events sent errors) (OutboxPublisher.markAll l)
      (Else (fun _ => Batch i events sent errors)) := by
  induction l with
  | nil => exact .ret Batch.stable (fun s _ h => h)
  | cons e l ih =>
      obtain ⟨he, hl'⟩ := List.cons_subset.mp hl
      have hmark : Triple engine shipping i t (Batch i events sent errors)
          (OutboxRepository.markPublished e) (Else (fun _ => Batch i events sent errors)) := by
        refine triple_then (triple_batch (by simp [Stmt.area]) (by simp) ?_) (fun now => ?_)
        · intro inp o w hwr
          exact absurd hwr (by simp [Stmt.write])
        refine triple_then (triple_batch (by simp [Stmt.area]) (by simp) ?_) (fun _ => ?_)
        · intro inp o w hwr
          cases hwr
          exact ⟨e, he, now, rfl⟩
        exact .ret Batch.stable (fun s _ h => h)
      exact triple_then hmark (fun _ => ih hl')

/-- Session `i` has neither sent nor buffered anything. -/
structure Unsent (i : Sid) (s : LedgerStore) : Prop where
  pending : s.pending i = []
  handed : ∀ h ∈ s.aux.handed, h.sender ≠ i
  reports : ∀ r ∈ s.aux.reports, r.caller ≠ i

theorem Unsent.stable : Stable engine shipping i (Unsent i) := by
  intro s s' h hr
  have ho : Others i s.aux s'.aux := hr.rely
  obtain ⟨l, hl, hn⟩ := ho.handed
  obtain ⟨l', hl', hn'⟩ := ho.reports
  refine ⟨hr.frame.pending.trans h.pending, fun x hx => ?_, fun r hr' => ?_⟩
  · rw [hl, List.mem_append] at hx
    rcases hx with hx | hx
    · exact h.handed x hx
    · exact hn x hx
  · rw [hl', List.mem_append] at hr'
    rcases hr' with hr' | hr'
    · exact h.reports r hr'
    · exact hn' r hr'

theorem Unsent.ofFresh (hi : Shipped s) (h : Fresh i s) : Unsent i s := by
  refine ⟨h.pending, fun x hx he => ?_, fun r hr he => ?_⟩
  · obtain ⟨o, ho, hs⟩ := hi.senders x hx
    exact h.trace o ho (hs.trans he)
  · obtain ⟨o, ho, hs⟩ := hi.callers r hr
    exact h.trace o ho (hs.trans he)

theorem triple_fetch {limit : Nat} :
    Triple engine shipping i t (Unsent i) (OutboxRepository.fetchUnpublished limit)
      (Else (fun events => Batch i events [] [])) := by
  refine .perform Unsent.stable (Else.stable (fun _ => Batch.stable)) ?_
  intro s inp r s' hi hu hx
  refine ⟨guar_outside hi hx (by simp) (by simp [Stmt.area]), ?_⟩
  obtain ⟨e, he, hr, haux, hdb, -⟩ := exec_quiet hx (by simp)
  have hpend := pending_subset hx (by simp) (fun _ _ => rfl)
  rw [hu.pending, Db.applyAll_nil] at he
  rw [hu.pending] at hpend
  have hs : s.aux.SameSent s'.aux := by
    rw [haux]
    exact (run_within he).sent (by simp [Stmt.area])
  cases r with
  | error x => trivial
  | ok events =>
      have hrows : events = inp.batch.filterMap s.db.outboxEvents.get := by
        rw [run] at he
        split at he
        · cases he
          exact (reads_ok hr.symm).2.1
        · exact absurd he (by simp)
      refine ⟨?_, ?_, by simp, ?_⟩
      · intro w hw
        exact absurd (hpend hw) (by simp)
      · intro x hx
        rw [hrows, List.mem_filterMap] at hx
        obtain ⟨id, -, hget⟩ := hx
        have hid : x.id = id := Table.key_of_get hget
        subst hid
        rw [hdb]
        exact ⟨x, hget, rfl⟩
      · intro _ r hr' hcall
        rw [hs.reports] at hr'
        exact absurd hcall (hu.reports r hr')

theorem triple_publishBatch {producer : Nat} {topic : String} {n : Nat} :
    Triple engine shipping i t (Unsent i) (OutboxPublisher.publishBatch producer topic n)
      (Else (fun _ s => ∃ events, Batch i events events [] s)) := by
  have hst : Stable engine shipping i (fun s => ∃ events, Batch i events events [] s) :=
    .ex (fun _ => Batch.stable)
  refine triple_then triple_fetch (fun events => ?_)
  dsimp only
  by_cases he : events = []
  · rw [if_pos he]
    exact .ret Batch.stable (fun s _ h => ⟨events, by rw [he] at h ⊢; exact h⟩)
  · rw [if_neg he]
    refine triple_then triple_produceAll (fun errors => ?_)
    refine triple_then triple_flush (fun flushed => ?_)
    unfold raiseIf
    by_cases herr : OutboxPublisher.onDelivery errors flushed.1 = []
    · rw [if_neg (not_not.mpr herr), herr, List.nil_append]
      refine triple_then (P := fun _ => Batch i events events []) ?_ (fun _ => ?_)
      · exact .ret Batch.stable (fun _ _ h => h)
      refine triple_then (triple_markAll (fun _ h => h)) (fun _ => ?_)
      exact .ret Batch.stable (fun s _ h => ⟨events, h⟩)
    · rw [if_pos herr]
      exact .raise Batch.stable (fun _ _ _ => trivial)

/-- **The commit of a batch.** If everything sent was answered, and no answer was an error,
the broker has acknowledged everything that is stamped. -/
theorem triple_commitBatch :
    Triple engine shipping i t (fun s => ∃ events, Batch i events events [] s) (query .commit)
      (Else (fun _ _ => True)) := by
  refine .perform (.ex (fun _ => Batch.stable)) (Else.stable (fun _ _ _ _ _ => trivial)) ?_
  rintro s inp r s' hi ⟨events, hb⟩ hx
  refine ⟨guar_shipment hi hx ?_ ?_, ?_⟩
  · intro e he
    obtain ⟨_, -, now, heq⟩ := hb.stamps _ he
    exact absurd heq (by simp)
  · intro hans e now hmem he
    obtain ⟨e₁, he₁, now', heq⟩ := hb.stamps _ hmem
    have hid : e.id = e₁.id := by injection heq
    obtain ⟨n, h, hn, hsender, hc⟩ := hb.handed e₁ he₁
    obtain ⟨rep, hrep, hidx, hcall⟩ := hans n h hn hsender
    have hacked : n ∈ s.aux.acked := by
      rw [← hidx]
      exact hi.success rep hrep (hb.reports rfl rep hrep hcall)
    -- the stamped row is the one that was sent, in all columns but the stamp
    obtain ⟨e₂, he₂, heq₂⟩ := hb.rows e₁ he₁
    obtain ⟨e₃, he₃, heq₃⟩ :=
      (Db.Grows.applyAll s.db (s.pending i)).events e₁.id e₂ he₂
    have hsame : e₃ = e := by
      have hself := Table.get_of_mem he
      rw [hid] at hself
      exact Option.some.inj (he₃.symm.trans hself)
    subst hsame
    exact ⟨n, h, hacked, hn, (hc.stamped heq₂).stamped heq₃⟩
  · cases r with
    | ok a => trivial
    | error x => trivial

theorem triple_iteration {producer : Nat} {topic : String} {n : Nat}
    {Q : Except Exn Nat → LedgerStore → Prop} (hQ : ∀ r s, Q r s) :
    Triple engine shipping i t (Unsent i) (OutboxPublisher.iteration producer topic n) Q := by
  have hwork : Triple engine shipping i t (Unsent i) (do
      let published ← OutboxPublisher.publishBatch producer topic n
      query .commit
      pure published) (Else (fun _ _ => True)) := by
    refine triple_then triple_publishBatch (fun published => ?_)
    refine triple_then triple_commitBatch (fun _ => ?_)
    exact .ret (fun _ _ h _ => h) (fun _ _ _ => trivial)
  unfold OutboxPublisher.iteration
  dsimp only
  rw [attempt_bind]
  refine .handle shipping_preorder (Q := fun _ _ => True)
    (hwork.conseq (fun _ _ h => h) (fun _ _ _ => trivial)) (fun r => triple_aside hQ ?_)
  cases r with
  | ok published => exact .bind (.perform ⟨by simp, by simp [Stmt.area]⟩) (fun _ => trivial)
  | error e =>
      refine .bind (.perform ⟨by simp, by simp [Stmt.area]⟩) (fun _ => ?_)
      exact .bind (.perform ⟨by simp, by simp [Stmt.area]⟩) (fun _ => trivial)

end

/-! ## Every run -/

variable [Runtime]

omit [Runtime] in
/-- Everybody but the publisher stays out of its areas. -/
theorem Request.areas_bystander {t : Request} (h : ∀ p topic n, t ≠ .publish p topic n) {a : Area}
    (ha : a ∈ t.areas) : a ≠ .stamp ∧ a ≠ .send := by
  cases t with
  | publish p topic n => exact absurd rfl (h p topic n)
  | _ => cases a <;> simp_all [Request.areas]

theorem triple_shipping {i : Sid} {t : Request} :
    Triple engine shipping i t (Fresh i) t.program (shipping.post i t) := by
  have hother : (∀ p topic n, t ≠ .publish p topic n) →
      Triple engine shipping i t (Fresh i) t.program (shipping.post i t) := by
    intro hne
    have hp := Uses.mono t.program_keeps (fun _ hq => Request.areas_bystander hne hq)
    refine (triple_bystander hp).conseq (fun s _ h => ?_) (fun _ _ h _ => h)
    unfold Unstamping
    rw [h.pending]
    simp
  cases t with
  | publish p topic n =>
      refine .map ((triple_iteration ?_).conseq (fun s hi h => .ofFresh hi h) (fun _ _ h => h))
      intro r s he
      exact absurd he (by simp)
  | _ => exact hother (by simp)

theorem shipping_sound {db₀ : Db} (h₀ : ∀ e ∈ db₀.outboxEvents.rows, e.publishedAt = none) :
    Sound system shipping (LedgerStore.start db₀) where
  pre := shipping_preorder
  init := by
    refine ⟨⟨?_, ?_, ?_, ?_⟩, fun i => .init i db₀ Outside.init⟩
    · intro r hr; exact absurd hr (by simp [LedgerStore.start, Store.init, Outside.init])
    · intro x hx; exact absurd hx (by simp [LedgerStore.start, Store.init, Outside.init])
    · intro r hr; exact absurd hr (by simp [LedgerStore.start, Store.init, Outside.init])
    · intro _ e he hp; exact absurd (h₀ e he) hp
  start := fun i t s hi hf => triple_shipping s hi hf
  again := by
    intro i t p a s hp hi ha
    have hp : t.next = some p := hp
    cases t with
    | analyticsConsumer =>
        have hkeeps := Uses.mono (Request.next_keeps hp)
          (fun _ hq => Request.areas_bystander (t := .analyticsConsumer) (by simp) hq)
        exact ((triple_bystander hkeeps).conseq (fun _ _ h => h) (fun _ _ h _ => h)) s hi (ha rfl)
    | _ => exact absurd hp (by simp [Request.next])
  crash := by
    intro i s hi
    have hs : s.aux.SameSent (s.drop engine i).aux := ⟨rfl, rfl, rfl⟩
    refine ⟨fun j _ => .ofSame hs, hi.idle hs (List.append_nil _).symm ?_⟩
    intro _ e he hp
    exact .inr ⟨e, he, hp, rfl⟩
  env := by
    intro x o s hi hx
    have hx : s.aux.move x = some o := hx
    have hsame : s.aux.SameSent o → (∀ j, shipping.rely j s { s with aux := o })
        ∧ Shipped { s with aux := o } := by
      intro hs
      refine ⟨fun j => .ofSame hs, hi.idle hs (List.append_nil _).symm ?_⟩
      intro _ e he hp
      exact .inr ⟨e, he, hp, rfl⟩
    cases x with
    | append p v => cases hx; exact hsame ⟨rfl, rfl, rfl⟩
    | assign p j => cases hx; exact hsame ⟨rfl, rfl, rfl⟩
    | lose k => cases hx; exact hsame ⟨rfl, rfl, rfl⟩
    | expire id => cases hx; exact hsame ⟨rfl, rfl, rfl⟩
    | settle k =>
        obtain ⟨p, n, -, rfl⟩ := Outside.settle_cases hx
        exact hsame ⟨rfl, rfl, rfl⟩
    | ack n p =>
        obtain ⟨h, -, rfl⟩ := Outside.ack_cases hx
        have ho : ∀ j, Others j s.aux { s.aux with
            acked := s.aux.acked ++ [n]
            partitions := upd s.aux.partitions p (s.aux.partitions p ++ [.event h.msg.value]) } :=
          fun j => ⟨⟨[], by simp, by simp⟩, ⟨[], by simp, by simp⟩, List.subset_append_left _ _⟩
        refine ⟨ho, hi.step (ho 0) (List.append_nil _).symm ?_ (fun _ h => .inl h)
          (fun _ h => .inl h) ?_⟩
        · intro r hr herr
          exact List.mem_append_left _ (hi.success r hr herr)
        · intro _ e he hp
          exact .inr ⟨e, he, hp, rfl⟩

/-- **A published event has been delivered**, in every run in which no publisher iteration
commits while a message it handed over is still unreported. -/
theorem reachable_delivered (db₀ : Db) (h₀ : ∀ e ∈ db₀.outboxEvents.rows, e.publishedAt = none)
    (w : LedgerWorld) (h : ReachableFrom db₀ w) (hatt : ∀ o ∈ w.store.trace, Attentive o) :
    ∀ e ∈ w.store.db.outboxEvents.rows, e.publishedAt ≠ none → Delivered w.store.aux e :=
  ((shipping_sound h₀).reachable h).inv.delivered hatt

/-- The deposit's event is handed over; `flush` gives up before any report; the event is stamped. -/
def timeout : List LedgerAction :=
  opening ++ [.spawn (.publish 0 "wallet.transactions" 100), .exec 5 { batch := [58] }]
    ++ advance 5 6 60

omit [Runtime] in
/-- An event is stamped although the broker has not acknowledged anything. -/
theorem undelivered_published : ¬∀ w, @ReachableFrom plainRuntime .empty w →
    ∀ e ∈ w.store.db.outboxEvents.rows, e.publishedAt ≠ none → Delivered w.store.aux e := by
  intro hall
  obtain ⟨w, hr, hw⟩ := exists_runPlain .empty timeout (fun w =>
    (w.store.db.outboxEvents.rows.any (fun e => e.publishedAt.isSome), w.store.aux.acked))
    (v := (true, [])) (by decide +kernel)
  obtain ⟨e, he, hp⟩ := List.any_eq_true.mp (congrArg Prod.fst hw)
  have hacked : w.store.aux.acked = [] := congrArg Prod.snd hw
  obtain ⟨n, h, hn, -⟩ := hall w hr e he (Option.isSome_iff_ne_none.mp hp)
  rw [hacked] at hn
  exact absurd hn (by simp)

/-- The same, but the broker acknowledges the message and `flush` reports it. -/
def shipment : List LedgerAction :=
  opening ++ [.spawn (.publish 0 "wallet.transactions" 100), .exec 5 { batch := [58] }, .exec 5 {},
      .env (.ack 0 0), .exec 5 { reports := [(0, none)] }]
    ++ advance 5 4 60

omit [Runtime] in
theorem shipment_delivered : ∃ w, (@ReachableFrom plainRuntime .empty w
    ∧ ∃ e ∈ w.store.db.outboxEvents.rows, e.publishedAt ≠ none)
    ∧ ∀ e ∈ w.store.db.outboxEvents.rows, e.publishedAt ≠ none → Delivered w.store.aux e := by
  obtain ⟨w, hr, hw⟩ := exists_runPlain .empty shipment (fun w =>
    (w.store.db.outboxEvents.rows.any (fun e => e.publishedAt.isSome),
      w.store.trace.all (fun o => decide (Attentive o))))
    (v := (true, true)) (by decide +kernel)
  obtain ⟨e, he, hp⟩ := List.any_eq_true.mp (congrArg Prod.fst hw)
  have hatt : ∀ o ∈ w.store.trace, Attentive o := by
    intro o ho
    exact of_decide_eq_true (List.all_eq_true.mp (congrArg Prod.snd hw) o ho)
  have h₀ : ∀ e ∈ Db.empty.outboxEvents.rows, e.publishedAt = none := by simp [Db.empty]
  exact ⟨w, ⟨hr, e, he, Option.isSome_iff_ne_none.mp hp⟩,
    @reachable_delivered plainRuntime .empty h₀ w hr hatt⟩

end WalletLedger
