import WalletLedger.Proof.Delivery
import WalletLedger.Proof.Inbox

/-!
# Offsets and the inbox

The consumer loop polls a record, handles its event, and commits the offset.
Whatever the handler raises is logged away and the offset is committed all the
same, so an event whose handling failed is behind the committed offset without
being in the inbox, and nobody will deliver it again.

As long as no commit of an offset is requested in a round in which the handler has
raised, everything below the committed offset of a partition is in the inbox. A
request is enough: if it is lost, that of a later round carries the offset past the
record. A handler that raises because another instance has filed the event in the
meantime does no harm. The contract follows a partition from member to member: a new
owner resumes at the committed offset, and between two rounds a member's position is
as good as a committed one.
-/

namespace WalletLedger

open Isolation Prog AnalyticsService

/-! ## Rounds -/

/-- The partition and the offset a statement commits. -/
def Stmt.offset : Stmt → Option (Nat × Nat)
  | .commitOffset part offset => some (part, offset)
  | _ => none

/-- The key of the inbox a statement looks up or files under. -/
def Stmt.inboxKey : Stmt → Option (String × Uuid)
  | .selectProcessed consumer id => some (consumer, id)
  | .insertProcessed consumer id => some (consumer, id)
  | _ => none

/-- A statement was answered, or it filed an event that was filed already. -/
def Served (o : LedgerObs) : Prop :=
  o.ok = true ∨ (o.stmt.files.bind o.db.processedEvents.get).isSome = true

/-- What session `i` has executed since its last poll, latest first. -/
def sincePoll (i : Sid) (os : List LedgerObs) : List LedgerObs :=
  (os.filter (fun o => decide (o.sid = i))).reverse.takeWhile (fun o => decide (o.stmt ≠ .poll))

/-- The record a poll finds. -/
def found (o : LedgerObs) : Option Value :=
  match o.inp.fetch with
  | .next p => (o.aux.partitions p)[o.aux.position p]?
  | _ => none

/-- The record session `i` has polled last. -/
def lastPolled (i : Sid) (os : List LedgerObs) : Option Value :=
  (os.filter (fun o => decide (o.sid = i ∧ o.stmt = .poll))).getLast?.bind found

/-- A statement has met a transaction in the inbox. -/
def Meets (o : LedgerObs) (id : Uuid) : Prop :=
  o.stmt.inboxKey = some (consumerName, id) ∧ InInbox o.db id

/-- The handler gets through a record without raising over what it reads off it: that is an event,
or its transaction was met in the inbox before anything else was read. -/
def Legible (v : Value) (os : List LedgerObs) : Prop :=
  match v with
  | .event _ => True
  | .foreign (some id) => ∃ o ∈ os, Meets o id
  | _ => False

/-- The handler has not raised in the present round of session `i`. -/
def Smooth (i : Sid) (os : List LedgerObs) : Prop :=
  (∀ o ∈ sincePoll i os, Served o) ∧ ∀ v ∈ lastPolled i os, Legible v (sincePoll i os)

/-- The commit of an offset was requested. -/
def MovesOffset (o : LedgerObs) : Prop := o.stmt.offset.isSome = true ∧ o.ok = true

/-- No commit of an offset is requested in a round in which the handler has raised. -/
def Diligent (os : List LedgerObs) : Prop :=
  ∀ k o, os[k]? = some o → MovesOffset o → Smooth o.sid (os.take k)

instance (o : LedgerObs) : Decidable (Served o) :=
  inferInstanceAs (Decidable (o.ok = true
    ∨ (o.stmt.files.bind o.db.processedEvents.get).isSome = true))

instance (o : LedgerObs) (id : Uuid) : Decidable (Meets o id) :=
  inferInstanceAs (Decidable (o.stmt.inboxKey = some (consumerName, id) ∧ InInbox o.db id))

instance (v : Value) (os : List LedgerObs) : Decidable (Legible v os) :=
  match v with
  | .event _ => inferInstanceAs (Decidable True)
  | .foreign (some id) => inferInstanceAs (Decidable (∃ o ∈ os, Meets o id))
  | .foreign none => inferInstanceAs (Decidable False)
  | .malformed => inferInstanceAs (Decidable False)

instance (i : Sid) (os : List LedgerObs) : Decidable (Smooth i os) :=
  inferInstanceAs (Decidable ((∀ o ∈ sincePoll i os, Served o)
    ∧ ∀ v ∈ lastPolled i os, Legible v (sincePoll i os)))

instance (o : LedgerObs) : Decidable (MovesOffset o) :=
  inferInstanceAs (Decidable (o.stmt.offset.isSome = true ∧ o.ok = true))

instance (os : List LedgerObs) : Decidable (Diligent os) :=
  decidable_of_iff (∀ x ∈ os.zipIdx, MovesOffset x.1 → Smooth x.1.sid (os.take x.2)) (by
    constructor
    · intro h k o ho
      exact h (o, k) (List.mem_zipIdx_iff_getElem?.mpr ho)
    · intro h x hx
      exact h x.2 x.1 (List.mem_zipIdx_iff_getElem?.mp hx))

section rounds

variable {i : Sid} {os l : List LedgerObs} {o : LedgerObs}

theorem sincePoll_others (h : ∀ o ∈ l, o.sid ≠ i) : sincePoll i (os ++ l) = sincePoll i os := by
  have hnil : l.filter (fun o => decide (o.sid = i)) = [] := by
    rw [List.filter_eq_nil_iff]
    intro o ho
    simpa using h o ho
  rw [sincePoll, List.filter_append, hnil, List.append_nil]
  rfl

theorem sincePoll_own (hs : o.sid = i) (hp : o.stmt ≠ .poll) :
    sincePoll i (os ++ [o]) = o :: sincePoll i os := by
  rw [sincePoll, List.filter_append, List.filter_cons_of_pos (by simpa using hs), List.filter_nil,
    List.reverse_append, List.reverse_singleton, List.singleton_append,
    List.takeWhile_cons_of_pos (by simpa using hp)]
  rfl

theorem sincePoll_poll (hs : o.sid = i) (hp : o.stmt = .poll) : sincePoll i (os ++ [o]) = [] := by
  rw [sincePoll, List.filter_append, List.filter_cons_of_pos (by simpa using hs), List.filter_nil,
    List.reverse_append, List.reverse_singleton, List.singleton_append,
    List.takeWhile_cons_of_neg (by simp [hp])]

theorem lastPolled_others (h : ∀ o ∈ l, o.sid ≠ i ∨ o.stmt ≠ .poll) :
    lastPolled i (os ++ l) = lastPolled i os := by
  have hnil : l.filter (fun o => decide (o.sid = i ∧ o.stmt = .poll)) = [] := by
    rw [List.filter_eq_nil_iff]
    intro o ho
    have hno := h o ho
    simpa [← not_and_or] using hno
  rw [lastPolled, List.filter_append, hnil, List.append_nil]
  rfl

theorem lastPolled_own (hs : o.sid = i) (hp : o.stmt = .poll) :
    lastPolled i (os ++ [o]) = found o := by
  rw [lastPolled, List.filter_append, List.filter_cons_of_pos (by simp [hs, hp]), List.filter_nil,
    List.getLast?_concat]
  rfl

theorem Diligent.before (h : Diligent (os ++ l)) : Diligent os := by
  intro k o ho hm
  have hk : k ≤ os.length := Nat.le_of_lt (List.getElem?_eq_some_iff.mp ho).1
  have hsm := h k o (getElem?_of_append l ho) hm
  rw [List.take_append_of_le_length hk] at hsm
  exact hsm

theorem Diligent.last (h : Diligent (os ++ [o])) (hm : MovesOffset o) : Smooth o.sid os := by
  have hsm := h os.length o (by simp) hm
  rw [List.take_left] at hsm
  exact hsm

end rounds

/-! ## The contract of the consumer group -/

/-- The transaction of a record is in the inbox. -/
def Recorded (db : Db) (v : Value) : Prop := ∃ id, v.transactionId = some id ∧ InInbox db id

/-- The first `n` records of partition `p` are in the inbox. -/
def HandledBelow (s : LedgerStore) (p n : Nat) : Prop :=
  ∀ k < n, ∃ v, (s.aux.partitions p)[k]? = some v ∧ Recorded s.db v

/-- Wherever session `i` fetches next, everything before is in the inbox. -/
def Seated (i : Sid) (s : LedgerStore) : Prop :=
  ∀ p, s.aux.owner p = some i → HandledBelow s p (s.aux.position p)

/-- How the group may move while member `i` is not looking. -/
structure Onward (i : Sid) (s s' : LedgerStore) : Prop where
  trace : ∃ l, s'.trace = s.trace ++ l
  inbox : ∀ id, InInbox s.db id → InInbox s'.db id
  partitions : ∀ p, s.aux.partitions p <+: s'.aux.partitions p
  /-- A partition of `i` is where it was, or has been assigned again. -/
  seat : ∀ p, s'.aux.owner p = some i →
    (s.aux.owner p = some i ∧ s'.aux.position p = s.aux.position p)
      ∨ (Diligent s'.trace → HandledBelow s' p (s'.aux.position p))

/-- The invariant of the group. -/
structure Handled (s : LedgerStore) : Prop where
  committed : Diligent s.trace → ∀ p, HandledBelow s p (s.aux.committed p)
  requested : Diligent s.trace → ∀ x ∈ s.aux.requested, HandledBelow s x.1 x.2
  /-- Somebody who has not said anything yet has nothing but what was assigned to him. -/
  unheard : Diligent s.trace → ∀ i, (∀ o ∈ s.trace, o.sid ≠ i) → Seated i s

/-- Member `i` between two rounds. -/
structure Between (i : Sid) (s : LedgerStore) : Prop where
  pending : s.pending i = []
  seated : Diligent s.trace → Seated i s

/-- The contract of the consumer group. -/
def offsets : Contract Db Write Res Outside Stmt Inp Exn Request Reply where
  rely := Onward
  inv := Handled
  post i t r s := t = .analyticsConsumer → r.isOk = true → Between i s

section contract

variable {i j : Sid} {s s' s'' : LedgerStore} {p n : Nat}

theorem HandledBelow.onward (h : HandledBelow s p n) (ho : Onward i s s') :
    HandledBelow s' p n := by
  intro k hk
  obtain ⟨v, hp, id, hid, hin⟩ := h k hk
  obtain ⟨l, hl⟩ := ho.partitions p
  exact ⟨v, by rw [← hl]; exact getElem?_of_append l hp, id, hid, ho.inbox id hin⟩

theorem Onward.diligent (h : Onward i s s') (hd : Diligent s'.trace) : Diligent s.trace := by
  obtain ⟨l, hl⟩ := h.trace
  rw [hl] at hd
  exact hd.before

theorem Seated.onward (h : Diligent s.trace → Seated i s) (ho : Onward i s s')
    (hd : Diligent s'.trace) : Seated i s' := by
  intro p hp
  rcases ho.seat p hp with ⟨hown, hpos⟩ | hnew
  · rw [hpos]
    exact (h (ho.diligent hd) p hown).onward ho
  · exact hnew hd

theorem offsets_preorder : offsets.Preorder where
  refl := fun i s => ⟨⟨[], by simp⟩, fun _ h => h, fun p => ⟨[], by simp⟩,
    fun p hp => .inl ⟨hp, rfl⟩⟩
  trans := by
    intro i s₁ s₂ s₃ h₁ h₂
    refine ⟨?_, fun id h => h₂.inbox id (h₁.inbox id h),
      fun p => (h₁.partitions p).trans (h₂.partitions p), fun p hp => ?_⟩
    · obtain ⟨l₁, e₁⟩ := h₁.trace
      obtain ⟨l₂, e₂⟩ := h₂.trace
      exact ⟨l₁ ++ l₂, by rw [e₂, e₁, List.append_assoc]⟩
    · rcases h₂.seat p hp with ⟨hown, hpos⟩ | hnew
      · rcases h₁.seat p hown with ⟨hown', hpos'⟩ | hold
        · exact .inl ⟨hown', hpos.trans hpos'⟩
        · right
          intro hd
          rw [hpos]
          exact (hold (h₂.diligent hd)).onward h₂
      · exact .inr hnew

/-- What has been requested may be committed. -/
def Settles (s s' : LedgerStore) : Prop :=
  ∀ p, s'.aux.committed p = s.aux.committed p ∨ (p, s'.aux.committed p) ∈ s.aux.requested

/-- Only newly requested offsets need a thought. -/
theorem Handled.step (hi : Handled s) {l : List LedgerObs} (htr : s'.trace = s.trace ++ l)
    (ho : ∀ j, (∀ o ∈ l, o.sid ≠ j) → Onward j s s')
    (hex : ∃ j, ∀ o ∈ l, o.sid ≠ j) (hc : Settles s s')
    (hq : ∀ x ∈ s'.aux.requested, x ∈ s.aux.requested
      ∨ (Diligent s'.trace → HandledBelow s' x.1 x.2)) : Handled s' where
  committed := by
    intro hd p
    obtain ⟨j, hj⟩ := hex
    have hd₀ := (ho j hj).diligent hd
    rcases hc p with hsame | hsettled
    · rw [hsame]
      exact (hi.committed hd₀ p).onward (ho j hj)
    · exact (hi.requested hd₀ _ hsettled).onward (ho j hj)
  requested := by
    intro hd x hx
    obtain ⟨j, hj⟩ := hex
    rcases hq x hx with hold | hnew
    · exact (hi.requested ((ho j hj).diligent hd) x hold).onward (ho j hj)
    · exact hnew hd
  unheard := by
    intro hd j hj
    rw [htr] at hj
    refine Seated.onward (fun hd' => hi.unheard hd' j ?_) (ho j ?_) hd
    · exact fun o hmem => hj o (List.mem_append_left _ hmem)
    · exact fun o hmem => hj o (List.mem_append_right _ hmem)

end contract

/-! ## Statements -/

section statements

variable {i j : Sid} {t : Request} {q : Stmt} {inp : Inp} {r : Except Exn q.Ans}
  {s s' : LedgerStore} {p n : Nat} {payload : Payload}

/-- What a statement of `i` does to member `j`, if the topic is left alone. -/
theorem onward_exec (hx : exec engine i t q inp s = some (r, s'))
    (hp : s'.aux.partitions = s.aux.partitions)
    (hseat : ∀ p, s'.aux.owner p = some j →
      s.aux.owner p = some j ∧ s'.aux.position p = s.aux.position p) : Onward j s s' where
  trace := ⟨_, exec_trace hx⟩
  inbox := fun _ h => h.grows (exec_grows hx)
  partitions := fun p => ⟨[], by rw [hp, List.append_nil]⟩
  seat := fun p h => .inl (hseat p h)

/-- A statement that leaves the seats of the others alone keeps the contract, if the offsets
it requests are good. -/
theorem guar_seats (hi : Handled s) (hx : exec engine i t q inp s = some (r, s'))
    (ho : ∀ j, j ≠ i → Onward j s s') (hc : s'.aux.committed = s.aux.committed)
    (hq : ∀ x ∈ s'.aux.requested, x ∈ s.aux.requested
      ∨ (Diligent s'.trace → HandledBelow s' x.1 x.2)) : Guar engine offsets i s s' := by
  refine ⟨ho, hi.step (exec_trace hx) (fun j hj => ho j ?_) ⟨i + 1, ?_⟩
    (fun p => .inl (by rw [hc])) hq⟩
  · exact fun he => hj _ (List.mem_singleton.mpr rfl) he.symm
  · intro o hmem
    rw [List.mem_singleton.mp hmem]
    exact (Nat.succ_ne_self i).symm

/-- **Whatever stays away from the group keeps the contract.** -/
theorem guar_group (hi : Handled s) (hx : exec engine i t q inp s = some (r, s'))
    (hs : s.aux.SameGroup s'.aux) : Guar engine offsets i s s' ∧ ∀ j, Onward j s s' := by
  have ho : ∀ j, Onward j s s' := by
    intro j
    refine onward_exec hx hs.partitions (fun p hp => ?_)
    rw [hs.owner] at hp
    exact ⟨hp, by rw [hs.position]⟩
  refine ⟨guar_seats hi hx (fun j _ => ho j) hs.committed (fun x hmem => .inl ?_), ho⟩
  rw [hs.requested] at hmem
  exact hmem

theorem guar_apart (hi : Handled s) (hx : exec engine i t q inp s = some (r, s'))
    (hq : q.area ≠ .consume) : Guar engine offsets i s s' ∧ ∀ j, Onward j s s' := by
  refine guar_group hi hx ?_
  obtain ⟨e, he, -, haux, -⟩ := exec_outcome hx
  rw [haux]
  exact (run_within he).group hq

end statements

/-! ## A round -/

/-- Member `i` has fetched `v` from partition `p` at offset `n`. -/
structure Holding (i : Sid) (p n : Nat) (v : Value) (s : LedgerStore) : Prop where
  message : (s.aux.partitions p)[n]? = some v
  below : Diligent s.trace → HandledBelow s p n
  seats : Diligent s.trace → ∀ p', s.aux.owner p' = some i →
    HandledBelow s p' (s.aux.position p') ∨ (p' = p ∧ s.aux.position p' = n + 1)

/-- The handler of session `i` has raised over `v`: a statement of it has, or it could
not read on. -/
def Raised (i : Sid) (v : Value) (s : LedgerStore) : Prop :=
  (∃ o ∈ sincePoll i s.trace, ¬Served o)
    ∨ (lastPolled i s.trace = some v ∧ ¬Legible v (sincePoll i s.trace))

/-- The record's transaction is in the inbox, or its handler has raised. -/
def Dealt (i : Sid) (v : Value) (s : LedgerStore) : Prop := Recorded s.db v ∨ Raised i v s

section round

variable {i j : Sid} {t : Request} {q : Stmt} {inp : Inp} {s s' : LedgerStore} {p n : Nat}
  {payload : Payload} {v : Value} {id : Uuid}

theorem Raised.not_smooth (h : Raised i v s) : ¬Smooth i s.trace := by
  rintro ⟨hserved, hlegible⟩
  rcases h with ⟨o, ho, hno⟩ | ⟨hlast, hno⟩
  · exact hno (hserved o ho)
  · exact hno (hlegible v hlast)

theorem Recorded.grows {db db' : Db} (h : Recorded db v) (hg : db.Grows db') : Recorded db' v := by
  obtain ⟨id, hid, hin⟩ := h
  exact ⟨id, hid, hin.grows hg⟩

theorem Between.stable : Stable engine offsets i (Between i) := by
  intro s s' h hr
  exact ⟨hr.frame.pending.trans h.pending, Seated.onward h.seated hr.rely⟩

theorem Holding.onward (h : Holding i p n v s) (ho : Onward i s s') : Holding i p n v s' where
  message := by
    obtain ⟨l, hl⟩ := ho.partitions p
    rw [← hl]
    exact getElem?_of_append l h.message
  below := fun hd => (h.below (ho.diligent hd)).onward ho
  seats := by
    intro hd p' hp'
    rcases ho.seat p' hp' with ⟨hown, hpos⟩ | hnew
    · rw [hpos]
      rcases h.seats (ho.diligent hd) p' hown with hb | hself
      · exact .inl (hb.onward ho)
      · exact .inr hself
    · exact .inl (hnew hd)

theorem Holding.stable : Stable engine offsets i (Holding i p n v) :=
  fun _ _ h hr => h.onward hr.rely

theorem Dealt.stable : Stable engine offsets i (Dealt i v) := by
  intro s s' h hr
  have ho : Onward i s s' := hr.rely
  obtain ⟨l, hl, hn⟩ := hr.frame.trace
  rcases h with ⟨id, hid, hin⟩ | h
  · exact .inl ⟨id, hid, ho.inbox id hin⟩
  · right
    unfold Raised
    rw [hl, sincePoll_others hn, lastPolled_others (fun o ho => .inl (hn o ho))]
    exact h

theorem sincePoll_exec {r : Except Exn q.Ans} (hx : exec engine i t q inp s = some (r, s'))
    (hp : q ≠ .poll) : sincePoll i s'.trace
      = ⟨i, t, q, inp, s.db, s.aux, r.isOk, s.commits.length⟩ :: sincePoll i s.trace := by
  rw [exec_trace hx]
  exact sincePoll_own rfl hp

/-- Nothing but a poll starts a new round. -/
theorem Dealt.exec {r : Except Exn q.Ans} (h : Dealt i v s)
    (hx : exec engine i t q inp s = some (r, s')) (hp : q ≠ .poll) : Dealt i v s' := by
  have hround := sincePoll_exec hx hp
  rcases h with h | ⟨o, ho, hno⟩ | ⟨hlast, hno⟩
  · exact .inl (h.grows (exec_grows hx))
  · exact .inr (.inl ⟨o, by rw [hround]; exact List.mem_cons_of_mem _ ho, hno⟩)
  · have hlast' : lastPolled i s'.trace = some v := by
      rw [exec_trace hx, lastPolled_others (by simp [hp])]
      exact hlast
    by_cases hnow : Legible v (sincePoll i s'.trace)
    · -- what was not met before was met by this statement
      left
      rw [hround] at hnow
      cases v with
      | malformed => exact absurd hnow (fun h => h)
      | event payload => exact absurd trivial hno
      | foreign txnId =>
          cases txnId with
          | none => exact absurd hnow (fun h => h)
          | some id =>
              obtain ⟨o, ho, hmeets⟩ := hnow
              rcases List.mem_cons.mp ho with rfl | ho
              · exact ⟨id, rfl, hmeets.2.grows (exec_grows hx)⟩
              · exact absurd ⟨o, ho, hmeets⟩ hno
    · exact .inr (.inr ⟨hlast', hnow⟩)

/-- **A statement of the handler that raises leaves a mark**, unless the event is filed. -/
theorem dealt_raised {x : Exn} (hx : exec engine i t q inp s = some (.error x, s')) (hp : q ≠ .poll)
    (hid : v.transactionId = some id) (hf : ∀ k, q.files = some k → k = (consumerName, id)) :
    Dealt i v s' := by
  by_cases hin : InInbox s.db id
  · exact .inl ⟨id, hid, hin.grows (exec_grows hx)⟩
  · refine .inr (.inl ⟨_, by rw [sincePoll_exec hx hp]; exact .head _, ?_⟩)
    rintro (hok | hfiled)
    · exact absurd hok Bool.false_ne_true
    · obtain ⟨row, hrow⟩ := Option.isSome_iff_exists.mp hfiled
      obtain ⟨k, hk, hget⟩ := Option.bind_eq_some_iff.mp hrow
      rw [hf k hk] at hget
      exact hin (Option.isSome_iff_exists.mpr ⟨row, hget⟩)

/-- One statement of the handler: it stays away from the group, and when it raises there is
nothing left to say. -/
theorem triple_handling {A : LedgerStore → Prop} {P : q.Ans → LedgerStore → Prop}
    (hA : Stable engine offsets i A) (hP : ∀ a, Stable engine offsets i (P a))
    (hq : q.area ≠ .consume) (hf : ∀ k, q.files = some k
      → k = (consumerName, payload.transactionId))
    (hok : ∀ s inp a s', A s → exec engine i t q inp s = some (.ok a, s') → P a s') :
    Triple engine offsets i t (fun s => Holding i p n (.event payload) s ∧ A s) (query q)
      (Ends (fun a s => Holding i p n (.event payload) s ∧ P a s)
        (fun s => Holding i p n (.event payload) s ∧ Dealt i (.event payload) s)) := by
  refine .perform (.and Holding.stable hA)
    (Ends.stable (fun a => .and Holding.stable (hP a)) (.and Holding.stable Dealt.stable)) ?_
  intro s inp r s' hi ha hx
  obtain ⟨hg, ho⟩ := guar_apart hi hx hq
  refine ⟨hg, ?_⟩
  have hpoll : q ≠ .poll := by
    intro he
    subst he
    exact hq rfl
  cases r with
  | ok a => exact ⟨ha.1.onward (ho i), hok s inp a s' ha.2 hx⟩
  | error x => exact ⟨ha.1.onward (ho i), dealt_raised hx hpoll rfl hf⟩

theorem pending_stable {ws : List Write} : Stable engine offsets i (fun s => s.pending i = ws) :=
  fun _ _ h hr => hr.frame.pending.trans h

/-- The handler has filed the event in its open transaction. -/
def Filed (i : Sid) (id : Uuid) (s : LedgerStore) : Prop :=
  .insertProcessed ⟨consumerName, id⟩ ∈ s.pending i

theorem Filed.stable : Stable engine offsets i (Filed i id) := by
  intro s s' h hr
  unfold Filed
  rw [hr.frame.pending]
  exact h

/-- What is buffered later does not undo it. -/
theorem Filed.grow {ws : List Write} (h : Filed i id s) (hp : s'.pending i = s.pending i ++ ws) :
    Filed i id s' := by
  unfold Filed
  rw [hp]
  exact List.mem_append_left _ h

/-- **The handler deals with the event or raises.** -/
theorem triple_handler : Triple engine offsets i t
    (fun s => Holding i p n (.event payload) s ∧ s.pending i = []) (handleEvent payload)
    (fun _ s => Holding i p n (.event payload) s ∧ Dealt i (.event payload) s) := by
  have hD : Stable engine offsets i
      (fun s => Holding i p n (.event payload) s ∧ Dealt i (.event payload) s) :=
    .and Holding.stable Dealt.stable
  refine triple_handleEvent offsets_preorder hD payload
    (fun s => Holding i p n (.event payload) s ∧ s.pending i = [])
    (fun s => Holding i p n (.event payload) s ∧ Filed i payload.transactionId s)
    (fun _ s => Holding i p n (.event payload) s ∧ Filed i payload.transactionId s)
    (fun s => Holding i p n (.event payload) s ∧ Filed i payload.transactionId s)
    (.and Holding.stable pending_stable) ?_ ?_ ?_ ?_ ?_ ?_ ?_
  · -- the look-up: a row that is found is in the inbox
    refine (triple_handling (q := .selectProcessed consumerName payload.transactionId)
      (P := fun row => if row.isSome then Dealt i (.event payload)
        else fun s => s.pending i = []) pending_stable (fun row => ?_) (by simp [Stmt.area])
      (by simp [Stmt.files]) ?_).conseq (fun _ _ h => h) (fun r s h => ?_)
    · cases row with
      | none => exact pending_stable
      | some x => exact Dealt.stable
    · intro s inp row s' hp hx
      obtain ⟨hrow, hdb, -, hpend, -⟩ := exec_reads (g := fun db =>
        db.processedEvents.get (consumerName, payload.transactionId)) (fun _ _ => rfl) hx
      rw [hp, Db.applyAll_nil] at hrow
      cases row with
      | none => exact hpend.trans hp
      | some x =>
          refine .inl ⟨payload.transactionId, rfl, ?_⟩
          rw [hdb]
          exact Option.isSome_iff_exists.mpr ⟨x, hrow.symm⟩
    · cases r with
      | error x => exact h
      | ok row =>
          cases row with
          | none => exact h
          | some x => exact h
  · -- the event is filed, but not committed
    refine triple_handling pending_stable (fun _ => Filed.stable) (by simp [Stmt.area])
      (fun k hk => (Option.some.inj hk).symm) (fun s inp a s' hp hx => ?_)
    obtain ⟨-, -, -, hpend, -⟩ := exec_writes rfl hx
    unfold Filed
    rw [hpend]
    exact List.mem_append_right _ (List.mem_singleton.mpr rfl)
  · -- the rollup's row is read, then inserted or updated, and the event stays filed
    refine triple_handling Filed.stable (fun _ => Filed.stable) (by simp [Stmt.area])
      (by simp [Stmt.files]) (fun s inp a s' hp hx => ?_)
    obtain ⟨-, -, -, hpend, -⟩ := exec_reads (g := fun db =>
      db.transactionStats.get (payload.currency, payload.type)) (fun _ _ => rfl) hx
    exact hp.grow (hpend.trans (List.append_nil _).symm)
  · refine triple_handling Filed.stable (fun _ => Filed.stable) (by simp [Stmt.area])
      (by simp [Stmt.files]) (fun s inp a s' hp hx => ?_)
    obtain ⟨-, -, -, hpend, -⟩ := exec_writes rfl hx
    exact hp.grow hpend
  · intro stat
    refine triple_handling Filed.stable (fun _ => Filed.stable) (by simp [Stmt.area])
      (by simp [Stmt.files]) (fun s inp a s' hp hx => ?_)
    obtain ⟨-, -, -, hpend, -⟩ := exec_writes rfl hx
    exact hp.grow hpend
  · -- with the commit what was filed is in the inbox
    refine (triple_handling Filed.stable (P := fun _ => Dealt i (.event payload))
      (fun _ => Dealt.stable) (by simp [Stmt.area]) (by simp [Stmt.files])
      (fun s inp a s' hp hx => ?_)).conseq (fun _ _ h => h) (fun r s h => ?_)
    · obtain ⟨-, -, ⟨x, -, herr, -⟩ | ⟨-, -, hdb, -⟩⟩ := exec_commit hx
      · exact absurd herr (by simp)
      · refine .inl ⟨payload.transactionId, rfl, ?_⟩
        rw [hdb]
        exact inInbox_applyAll hp
    · cases r with
      | ok u => exact h
      | error x => exact h
  · -- the rollback follows a commit that has raised
    refine .perform hD (fun _ => hD) (fun s inp r s' hi h hx => ?_)
    obtain ⟨hg, ho⟩ := guar_apart hi hx (by simp [Stmt.area])
    exact ⟨hg, h.1.onward (ho i), h.2.exec hx (by simp)⟩

/-- JSON that is no event is dealt with from the start. -/
theorem triple_foreign {txnId : Option Uuid} : Triple engine offsets i t
    (fun s => Holding i p n (.foreign txnId) s ∧ Dealt i (.foreign txnId) s) (handleForeign txnId)
    (fun _ s => Holding i p n (.foreign txnId) s ∧ Dealt i (.foreign txnId) s) := by
  have hapart : ∀ q : Stmt, q.area ∈ [Area.plain, .inbox] → q.area ≠ .consume := by
    intro q hq hc
    rw [hc] at hq
    exact absurd hq (by simp)
  refine .uses (Uses.mono (keeps_handleForeign txnId) hapart) (.and Holding.stable Dealt.stable) ?_
  intro q hq s inp r s' hi h hx
  obtain ⟨hg, ho⟩ := guar_apart hi hx hq
  refine ⟨hg, h.1.onward (ho i), h.2.exec hx ?_⟩
  rintro rfl
  exact hq rfl

/-- What a member knows after a poll. A record that is not JSON ends the process. -/
def Fetched (i : Sid) : Polled → LedgerStore → Prop
  | .record p n (.event payload), s => Holding i p n (.event payload) s ∧ s.pending i = []
  | .record p n (.foreign txnId), s =>
      Holding i p n (.foreign txnId) s ∧ Dealt i (.foreign txnId) s
  | .record _ _ .malformed, _ => True
  | _, s => Between i s

theorem Fetched.stable (msg : Polled) : Stable engine offsets i (Fetched i msg) := by
  cases msg with
  | nothing => exact Between.stable
  | error c => exact Between.stable
  | record p n value =>
      cases value with
      | malformed => exact fun _ _ h _ => h
      | foreign txnId => exact .and Holding.stable Dealt.stable
      | event payload => exact .and Holding.stable pending_stable

theorem triple_poll : Triple engine offsets i t (Between i) (query .poll)
    (Ends (Fetched i) (fun _ => True)) := by
  refine .perform Between.stable (Ends.stable Fetched.stable (fun _ _ h _ => h)) ?_
  intro s inp r s' hi hb hx
  have hpend : s'.pending i = [] := by
    have hsub := pending_subset hx (by simp) (fun _ _ => rfl)
    rw [hb.pending] at hsub
    exact List.subset_nil.mp hsub
  obtain ⟨e, he, hr, haux, -⟩ := exec_quiet hx (by simp)
  rcases runPoll_cases he with ⟨hsame, hans⟩ | ⟨p, v, hfetch, hown, hv, hans, hmoved⟩
  · obtain ⟨hg, ho⟩ := guar_group hi hx (by rw [haux, hsame]; exact .refl _)
    have hb' : Between i s' := ⟨hpend, Seated.onward hb.seated (ho i)⟩
    rcases hans with hans | ⟨c, hans⟩
    · rw [hr, hans]
      exact ⟨hg, hb'⟩
    · rw [hr, hans]
      exact ⟨hg, hb'⟩
  · rw [hmoved] at haux
    have hpart : s'.aux.partitions = s.aux.partitions := by rw [haux]
    have howner : s'.aux.owner = s.aux.owner := by rw [haux]
    -- the position moves in a partition of `i` only
    have hpos : ∀ p', p' ≠ p → s'.aux.position p' = s.aux.position p' := by
      intro p' hp'
      rw [haux]
      exact upd_ne _ _ hp'
    have ho : ∀ j, j ≠ i → Onward j s s' := by
      intro j hj
      refine onward_exec hx hpart (fun p' hp' => ?_)
      rw [howner] at hp'
      refine ⟨hp', hpos p' ?_⟩
      intro he
      subst he
      exact hj (Option.some.inj (hp'.symm.trans hown))
    refine ⟨guar_seats hi hx ho (by rw [haux])
      (fun x hmem => .inl (by rw [haux] at hmem; exact hmem)), ?_⟩
    rw [hr, hans]
    have hold : Onward (i + 1) s s' := ho _ (Nat.succ_ne_self i)
    have hholding : Holding i p (s.aux.position p) v s' := by
      refine ⟨by rw [hpart]; exact hv, fun hd => ?_, fun hd p' hp' => ?_⟩
      · exact (hb.seated (hold.diligent hd) p hown).onward hold
      · rw [howner] at hp'
        by_cases he : p' = p
        · subst he
          exact .inr ⟨rfl, by rw [haux]; exact upd_self _ _ _⟩
        · rw [hpos p' he]
          exact .inl ((hb.seated (hold.diligent hd) p' hp').onward hold)
    cases v with
    | malformed => trivial
    | event payload => exact ⟨hholding, hpend⟩
    | foreign txnId =>
        -- nothing has been met in a round that has only polled
        refine ⟨hholding, .inr (.inr ⟨?_, ?_⟩)⟩
        · rw [exec_trace hx, lastPolled_own (by rfl) (by rfl), found]
          dsimp only
          rw [hfetch]
          exact hv
        · have hnil : sincePoll i s'.trace = [] := by
            rw [exec_trace hx]
            exact sincePoll_poll rfl rfl
          rw [hnil]
          cases txnId <;> simp [Legible]

/-- **The commit of an offset is requested after the event is in the inbox**, or after the handler
raised. -/
theorem triple_commitOffset : Triple engine offsets i t
    (fun s => (Holding i p n v s ∧ Dealt i v s) ∧ s.pending i = [])
    (query (.commitOffset p n)) (Ends (fun _ => Between i) (fun _ => True)) := by
  refine .perform (.and (.and Holding.stable Dealt.stable) pending_stable)
    (Ends.stable (fun _ => Between.stable) (fun _ _ h _ => h)) ?_
  rintro s inp r s' hi ⟨⟨hh, hdealt⟩, hp⟩ hx
  obtain ⟨e, he, hr, haux, -⟩ := exec_quiet hx (by simp)
  cases he
  rcases runCommitOffset_cases inp s.aux p n with ⟨c, hc⟩ | hc
  · -- nothing is requested, and the exception ends the process
    rw [hc] at haux hr
    obtain ⟨hg, -⟩ := guar_group hi hx (by rw [haux]; exact .refl _)
    rw [hr]
    exact ⟨hg, trivial⟩
  · rw [hc] at haux hr
    have hpart : s'.aux.partitions = s.aux.partitions := by rw [haux]
    have ho : ∀ j, Onward j s s' := by
      intro j
      refine onward_exec hx hpart (fun p' hp' => ?_)
      rw [haux] at hp' ⊢
      exact ⟨hp', rfl⟩
    have hbelow : Diligent s'.trace → HandledBelow s' p (n + 1) := by
      intro hd k hlt
      -- this very request tells that the handler has not raised
      have hsm : Smooth i s.trace := by
        rw [exec_trace hx] at hd
        exact hd.last ⟨rfl, by rw [hr]; rfl⟩
      have hrec : Recorded s.db v := hdealt.resolve_right (fun hraised => hraised.not_smooth hsm)
      rcases Nat.lt_succ_iff_lt_or_eq.mp hlt with hk' | rfl
      · exact (hh.below ((ho i).diligent hd)).onward (ho i) k hk'
      · exact ⟨v, by rw [hpart]; exact hh.message, hrec.grows (exec_grows hx)⟩
    refine ⟨guar_seats hi hx (fun j _ => ho j) (by rw [haux]) (fun x hmem => ?_), ?_⟩
    · rw [haux] at hmem
      rcases List.mem_append.mp hmem with hmem | hmem
      · exact .inl hmem
      · rw [List.mem_singleton.mp hmem]
        exact .inr hbelow
    · have hsub := pending_subset hx (by simp) (fun _ _ => rfl)
      rw [hp] at hsub
      rw [hr]
      refine ⟨List.subset_nil.mp hsub, fun hd p' hp' => ?_⟩
      rcases (hh.onward (ho i)).seats hd p' hp' with hb | ⟨rfl, hpos⟩
      · exact hb
      · rw [hpos]
        exact hbelow hd

/-- A member that leaves takes nothing from the others. -/
theorem triple_closeConsumer {A : LedgerStore → Prop} (hA : Stable engine offsets i A) :
    Triple engine offsets i t A (query .closeConsumer) (fun _ _ => True) := by
  refine .perform hA (fun _ _ _ h _ => h) ?_
  intro s inp r s' hi _ hx
  refine ⟨?_, trivial⟩
  obtain ⟨e, he, -, haux, -⟩ := exec_quiet hx (by simp)
  cases he
  refine guar_seats hi hx (fun j _ => onward_exec hx (by rw [haux]; rfl) (fun p hp => ?_))
    (by rw [haux]; rfl) (fun x hmem => .inl (by rw [haux] at hmem; exact hmem))
  rw [haux] at hp ⊢
  refine ⟨?_, rfl⟩
  have hif : (if s.aux.owner p = some i then none else s.aux.owner p) = some j := hp
  by_cases hown : s.aux.owner p = some i
  · rw [if_pos hown] at hif
    exact absurd hif (by simp)
  · rw [if_neg hown] at hif
    exact hif

/-- Hand over the pieces of a round. -/
theorem triple_rounds : Triple engine offsets i t (Between i)
    (AnalyticsConsumer.guarded AnalyticsConsumer.round)
    (Ends (fun _ => Between i) (fun _ => True)) := by
  have hD : ∀ {p n v}, Stable engine offsets i (fun s => Holding i p n v s ∧ Dealt i v s) :=
    .and Holding.stable Dealt.stable
  refine triple_guardedRound offsets_preorder Between.stable (Fetched i)
    (fun p n v s => Holding i p n v s ∧ Dealt i v s)
    (fun p n v s => (Holding i p n v s ∧ Dealt i v s) ∧ s.pending i = []) triple_poll (fun _ h => h)
    (fun _ _ h => h) (fun _ _ _ => triple_handler) (fun _ _ _ => triple_foreign) (fun p n v => ?_)
    (fun _ _ _ => triple_commitOffset) (triple_closeConsumer (fun _ _ h _ => h))
  refine .perform hD (Ends.stable (fun _ => .and hD pending_stable) (fun _ _ h _ => h)) ?_
  intro s inp r s' hi h hx
  obtain ⟨hg, ho⟩ := guar_apart hi hx (by simp [Stmt.area])
  refine ⟨hg, ?_⟩
  cases r with
  | ok u => exact ⟨⟨h.1.onward (ho i), h.2.exec hx (by simp)⟩, exec_close hx⟩
  | error x => trivial

/-- The reply of a round. -/
theorem triple_replied {p : Tx Unit} {A : LedgerStore → Prop}
    (hp : Triple engine offsets i t A p (Ends (fun _ => Between i) (fun _ => True))) :
    Triple engine offsets i t A ((fun _ => Reply.polled) <$> p) (offsets.post i t) := by
  refine .map (hp.conseq (fun _ _ h => h) (fun r s h => ?_))
  intro _ hok
  cases r with
  | ok u => exact h
  | error x => exact absurd hok Bool.false_ne_true

theorem triple_process : Triple engine offsets i t (fun s => Fresh i s) AnalyticsConsumer.main
    (Ends (fun _ => Between i) (fun _ => True)) := by
  have hfresh : Stable engine offsets i (fun s => Fresh i s) := fun _ _ h hr => h.frame hr.frame
  refine triple_onward offsets_preorder (fun _ _ h _ => h) (P := fun _ => Between i) ?_
    (fun _ => triple_rounds)
  refine .perform hfresh (Ends.stable (fun _ => Between.stable) (fun _ _ h _ => h)) ?_
  intro s inp r s' hi h hx
  obtain ⟨hg, ho⟩ := guar_apart hi hx (by simp [Stmt.area])
  refine ⟨hg, ?_⟩
  cases r with
  | error x => trivial
  | ok u =>
      have hsub := pending_subset hx (by simp) (fun _ _ => rfl)
      rw [h.pending] at hsub
      exact ⟨List.subset_nil.mp hsub, Seated.onward (fun hd => hi.unheard hd i h.trace) (ho i)⟩

end round

/-! ## Every run -/

variable [Runtime]

omit [Runtime] in
/-- Only the consumer has to do with the group. -/
theorem Request.areas_outsider {t : Request} (h : t ≠ .analyticsConsumer) {a : Area}
    (ha : a ∈ t.areas) : a ≠ .consume := by
  cases t with
  | analyticsConsumer => exact absurd rfl h
  | _ => cases a <;> simp_all [Request.areas]

theorem triple_offsets {i : Sid} {t : Request} :
    Triple engine offsets i t (fun s => Fresh i s) t.program (offsets.post i t) := by
  by_cases ht : t = .analyticsConsumer
  · subst ht
    exact triple_replied triple_process
  · have hp := Uses.mono t.program_keeps (fun _ hq => Request.areas_outsider ht hq)
    refine (Triple.uses hp (A := fun _ => True) (fun _ _ h _ => h) ?_).conseq (fun _ _ _ => trivial)
      (fun _ _ _ h => absurd h ht)
    intro q hq s inp r s' hi _ hx
    exact ⟨(guar_apart hi hx hq).1, trivial⟩

omit [Runtime] in
/-- A move outside the sessions adds records, or assigns a partition at its committed offset. -/
theorem onward_env {m : Move} {o : Outside} {s : LedgerStore} (hi : Handled s)
    (hm : s.aux.move m = some o) (j : Sid) : Onward j s { s with aux := o } := by
  have hsame : o.partitions = s.aux.partitions → o.owner = s.aux.owner →
      o.position = s.aux.position → Onward j s { s with aux := o } := by
    intro hparts howner hposition
    refine ⟨⟨[], by simp⟩, fun _ h => h, fun p => ?_, fun p hp => .inl ?_⟩
    · exact ⟨[], by rw [hparts, List.append_nil]⟩
    · have hp : o.owner p = some j := hp
      rw [howner] at hp
      exact ⟨hp, by show o.position p = _; rw [hposition]⟩
  have hgrown : ∀ (p : Nat) (v : Value) (acked : List Nat), Onward j s { s with aux := { s.aux with
      acked := acked, partitions := upd s.aux.partitions p (s.aux.partitions p ++ [v]) } } := by
    intro p v acked
    refine ⟨⟨[], by simp⟩, fun _ h => h, fun p' => ?_, fun p hp => .inl ⟨hp, rfl⟩⟩
    by_cases hp : p' = p
    · subst hp
      exact ⟨[v], (upd_self s.aux.partitions p' (s.aux.partitions p' ++ [v])).symm⟩
    · exact ⟨[], (List.append_nil _).trans (upd_ne s.aux.partitions _ hp).symm⟩
  cases m with
  | ack n p =>
      obtain ⟨x, -, rfl⟩ := Outside.ack_cases hm
      exact hgrown p _ _
  | append p v => cases hm; exact hgrown p v s.aux.acked
  | settle k =>
      obtain ⟨p, n, -, rfl⟩ := Outside.settle_cases hm
      exact hsame rfl rfl rfl
  | lose k => cases hm; exact hsame rfl rfl rfl
  | expire id => cases hm; exact hsame rfl rfl rfl
  | assign p i =>
      cases hm
      refine ⟨⟨[], by simp⟩, fun _ h => h, fun _ => List.prefix_refl _, fun p' hp' => ?_⟩
      by_cases he : p' = p
      · subst he
        right
        intro hd
        simp only [upd_self]
        exact hi.committed hd p'
      · left
        have hp' : upd s.aux.owner p (some i) p' = some j := hp'
        rw [upd_ne _ _ he] at hp'
        exact ⟨hp', upd_ne _ _ he⟩

omit [Runtime] in
/-- What a move commits was requested, and no move requests anything. -/
theorem Outside.move_commits {o o' : Outside} {m : Move} (h : o.move m = some o') :
    (∀ p, o'.committed p = o.committed p ∨ (p, o'.committed p) ∈ o.requested)
      ∧ o'.requested ⊆ o.requested := by
  cases m with
  | ack n p =>
      obtain ⟨x, -, rfl⟩ := Outside.ack_cases h
      exact ⟨fun _ => .inl rfl, List.Subset.refl _⟩
  | settle k =>
      obtain ⟨p, n, hk, rfl⟩ := Outside.settle_cases h
      refine ⟨fun q => ?_, List.eraseIdx_subset⟩
      by_cases hq : q = p
      · subst hq
        refine .inr ?_
        show (q, upd o.committed q n q) ∈ o.requested
        rw [upd_self]
        exact List.mem_of_getElem? hk
      · exact .inl (upd_ne _ _ hq)
  | append p v => cases h; exact ⟨fun _ => .inl rfl, List.Subset.refl _⟩
  | assign p i => cases h; exact ⟨fun _ => .inl rfl, List.Subset.refl _⟩
  | lose k => cases h; exact ⟨fun _ => .inl rfl, List.eraseIdx_subset⟩
  | expire id => cases h; exact ⟨fun _ => .inl rfl, List.Subset.refl _⟩

theorem offsets_sound {db₀ : Db} : Sound system offsets (LedgerStore.start db₀) where
  pre := offsets_preorder
  init := by
    refine ⟨⟨?_, ?_, ?_⟩, fun i => .init i db₀ Outside.init⟩
    · intro _ p k hk; exact absurd hk (Nat.not_lt_zero k)
    · intro _ x hx; exact absurd hx (by simp [LedgerStore.start, Store.init, Outside.init])
    · intro _ i _ p hp; exact absurd hp (by simp [LedgerStore.start, Store.init, Outside.init])
  start := fun i t s hi hf => triple_offsets s hi hf
  again := by
    intro i t p a s hp hi ha
    have hp : t.next = some p := hp
    cases t with
    | analyticsConsumer =>
        cases hp
        exact triple_replied triple_rounds s hi (ha rfl rfl)
    | _ => exact absurd hp (by simp [Request.next])
  crash := by
    intro i s hi
    have ho : ∀ j, Onward j s (s.drop engine i) := by
      intro j
      refine ⟨⟨[], by simp [Store.drop]⟩, fun _ h => h, fun p => List.prefix_refl _, fun p hp => ?_⟩
      have hif : (if s.aux.owner p = some i then none else s.aux.owner p) = some j := hp
      by_cases hown : s.aux.owner p = some i
      · rw [if_pos hown] at hif
        exact absurd hif (by simp)
      · rw [if_neg hown] at hif
        exact .inl ⟨hif, rfl⟩
    exact ⟨fun j _ => ho j, hi.step (List.append_nil _).symm (fun j _ => ho j) ⟨0, by simp⟩
      (fun p => .inl rfl) (fun x hx => .inl hx)⟩
  env := by
    intro x o s hi hx
    have hx : s.aux.move x = some o := hx
    exact ⟨onward_env hi hx, hi.step (List.append_nil _).symm (fun j _ => onward_env hi hx j)
      ⟨0, by simp⟩ (Outside.move_commits hx).1
        (fun x hmem => .inl ((Outside.move_commits hx).2 hmem))⟩

/-- **Everything below a committed offset is in the inbox**, in every run in which no commit of an
offset is requested in a round whose handler has raised. -/
theorem reachable_handled (db₀ : Db) (w : LedgerWorld) (h : ReachableFrom db₀ w)
    (hd : Diligent w.store.trace) : ∀ p, HandledBelow w.store p (w.store.aux.committed p) :=
  (offsets_sound.reachable h).inv.committed hd

/-- The delivered event of the deposit is polled; the handler's first statement loses its
connection; the offset is committed. -/
def dropped : List LedgerAction :=
  shipment ++ [.spawn .analyticsConsumer, .env (.assign 0 6), .exec 6 {},
    .exec 6 { fetch := .next 0 }, .exec 6 { fault := some .operational }, .exec 6 {}, .exec 6 {},
    .env (.settle 0)]

omit [Runtime] in
/-- The deposit's record is behind the committed offset, and not in the inbox. -/
theorem dropped_unhandled : ¬∀ w, @ReachableFrom plainRuntime .empty w →
    ∀ p, HandledBelow w.store p (w.store.aux.committed p) := by
  intro hall
  obtain ⟨w, hr, hw⟩ := exists_runPlain .empty dropped (fun w =>
    (w.store.aux.committed 0, w.store.db.processedEvents.rows)) (v := (1, [])) (by decide +kernel)
  have hcomm : w.store.aux.committed 0 = 1 := congrArg Prod.fst hw
  have hrows : w.store.db.processedEvents.rows = [] := congrArg Prod.snd hw
  obtain ⟨v, -, id, -, hin⟩ := hall w hr 0 0 (by rw [hcomm]; exact Nat.one_pos)
  obtain ⟨row, hrow⟩ := Option.isSome_iff_exists.mp hin
  have hmem := (Table.get_eq_some.mp hrow).1
  rw [hrows] at hmem
  exact absurd hmem (by simp)

/-- The same with a handler that goes through. -/
def consumed : List LedgerAction :=
  shipment ++ [.spawn .analyticsConsumer, .env (.assign 0 6), .exec 6 {},
    .exec 6 { fetch := .next 0 }] ++ advance 6 7 70 ++ [.env (.settle 0)]

omit [Runtime] in
theorem consumed_handled : ∃ w, (@ReachableFrom plainRuntime .empty w
    ∧ w.store.aux.committed 0 = 1) ∧ ∀ p, HandledBelow w.store p (w.store.aux.committed p) := by
  obtain ⟨w, hr, hw⟩ := exists_runPlain .empty consumed (fun w =>
    (w.store.aux.committed 0, decide (Diligent w.store.trace))) (v := (1, true)) (by decide +kernel)
  have hd : Diligent w.store.trace := of_decide_eq_true (congrArg Prod.snd hw)
  exact ⟨w, ⟨hr, congrArg Prod.fst hw⟩, @reachable_handled plainRuntime .empty w hr hd⟩

end WalletLedger
