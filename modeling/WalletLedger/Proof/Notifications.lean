import WalletLedger.App.Notifications
import WalletLedger.Isolation.Sequential

/-!
# Notified at least once, and at most once by a process

Two promises about the same handler. *At least once*: whatever record is behind the
committed offset, the handler has completed for its transaction, in this process or in
an earlier one. *At most once*: no process completes the handler twice for one
transaction.

The first is about the order handler, `seen.add`, `commit`, and about exceptions ending
the loop: a process that goes on past a record has been through its `commit`. So every
offset below the place it has reached is dealt with, except that of the record in hand
(`Held.place`). The second is about `seen` being exactly what the process has completed,
whenever the process asks (`Remembers`).
-/

namespace WalletLedger

open Isolation Prog

namespace Notifications

/-- The store of the consumer's system: what is outside, and the history. -/
abbrev Memory := Store Unit Empty Empty Outside Stmt Inp Unit

/-! ## What the history says -/

/-- The transaction a call has completed the handler for. -/
def completed (c : Call) : Option (Option String) :=
  match c.stmt, c.ok with
  | .handler payload, true => some payload.transactionId
  | _, _ => none

/-- The transactions process `i` has completed the handler for, in order. -/
def completions (i : Sid) (tr : List Call) : List (Option String) :=
  (tr.filter (fun c => decide (c.sid = i))).filterMap completed

/-- Some process has completed the handler for a transaction. -/
def Notified (tr : List Call) (txnId : Option String) : Prop := ∃ i, txnId ∈ completions i tr

/-- The record at an offset is an event whose transaction has been notified. -/
def Dealt (s : Memory) (p n : Nat) : Prop :=
  ∃ payload : Notice, (s.aux.partitions p)[n]? = some (some payload)
    ∧ Notified s.trace payload.transactionId

section history

variable {i : Sid} {tr l : List Call} {c : Call} {s s' : Memory}

theorem completions_append : completions i (tr ++ l) = completions i tr ++ completions i l := by
  rw [completions, List.filter_append, List.filterMap_append, completions, completions]

theorem completions_others (h : ∀ c ∈ l, c.sid ≠ i) :
    completions i (tr ++ l) = completions i tr := by
  have hnil : l.filter (fun c => decide (c.sid = i)) = [] := by
    rw [List.filter_eq_nil_iff]
    intro c hc
    simpa using h c hc
  rw [completions_append, completions, completions, hnil]
  simp

theorem completions_none (h : completed c = none) :
    completions i (tr ++ [c]) = completions i tr := by
  rw [completions_append]
  by_cases hi : c.sid = i
  · simp [completions, hi, h]
  · simp [completions, hi]

/-- The topic and the history only grow. -/
structure Grows (s s' : Memory) : Prop where
  partitions : ∀ p, s.aux.partitions p <+: s'.aux.partitions p
  trace : s.trace <+: s'.trace

theorem Grows.refl (s : Memory) : Grows s s := ⟨fun _ => List.prefix_refl _, List.prefix_refl _⟩

theorem Grows.trans {s'' : Memory} (h₁ : Grows s s') (h₂ : Grows s' s'') : Grows s s'' :=
  ⟨fun p => (h₁.partitions p).trans (h₂.partitions p), h₁.trace.trans h₂.trace⟩

theorem Grows.record (h : Grows s s') {p n : Nat} {v : Value}
    (hv : (s.aux.partitions p)[n]? = some v) : (s'.aux.partitions p)[n]? = some v := by
  obtain ⟨l, hl⟩ := h.partitions p
  rw [← hl]
  exact getElem?_of_append l hv

theorem Grows.completions (h : Grows s s') {txnId : Option String}
    (hid : txnId ∈ completions i s.trace) : txnId ∈ Notifications.completions i s'.trace := by
  obtain ⟨l, hl⟩ := h.trace
  rw [← hl, completions_append]
  exact List.mem_append_left _ hid

theorem Grows.dealt (h : Grows s s') {p n : Nat} (hd : Dealt s p n) : Dealt s' p n := by
  obtain ⟨payload, hrow, j, hj⟩ := hd
  exact ⟨payload, h.record hrow, j, h.completions hj⟩

end history

/-! ## The contract -/

/-- What holds at every moment. -/
structure Kept (s : Memory) : Prop where
  /-- Below every offset on its way to the broker, everything is dealt with. -/
  requested : ∀ r ∈ s.aux.requested, ∀ k, k < r.2 → Dealt s r.1 k
  /-- So it is below the committed offset. -/
  committed : ∀ p k, k < s.aux.committed p → Dealt s p k
  /-- No process has completed the handler twice for one transaction. -/
  once : ∀ i, (completions i s.trace).Nodup
  /-- What a process has seen it has completed. -/
  seen : ∀ i, ∀ txnId ∈ s.aux.seen i, txnId ∈ completions i s.trace
  /-- A process that has not made a call yet begins where everything below is dealt with. -/
  unborn : ∀ i, (∀ c ∈ s.trace, c.sid ≠ i) → ∀ p k, s.aux.owner p = some i →
    k < s.aux.position p → Dealt s p k
  /-- A process commits the offset of a record it has handled itself. -/
  commits : ∀ c ∈ s.trace, ∀ p n, c.stmt = .commit p n →
    ∃ payload : Notice, (s.aux.partitions p)[n]? = some (some payload)
      ∧ payload.transactionId ∈ completions c.sid s.trace
  /-- When a process has asked its memory, it was up to date. -/
  asked : ∀ (k : Nat) (c : Call) txnId, s.trace[k]? = some c → c.stmt = .isSeen txnId →
    (txnId ∈ c.aux.seen c.sid ↔ txnId ∈ completions c.sid (s.trace.take k))

/-- What a process relies on: nobody else touches its memory, and if a partition of its own
has been set back to an offset, everything below is dealt with. -/
structure Relied (i : Sid) (s s' : Memory) : Prop where
  seen : s'.aux.seen i = s.aux.seen i
  grows : Grows s s'
  place : ∀ p k, s'.aux.owner p = some i → k < s'.aux.position p →
    (s.aux.owner p = some i ∧ k < s.aux.position p) ∨ Dealt s' p k

/-- Its memory holds what it has completed, up to `extra`. -/
def Remembers (i : Sid) (extra : List (Option String)) (s : Memory) : Prop :=
  ∀ txnId ∈ completions i s.trace, txnId ∈ extra ∨ txnId ∈ s.aux.seen i

/-- Everything a process has got past is dealt with. -/
def Past (i : Sid) (s : Memory) : Prop :=
  ∀ p k, s.aux.owner p = some i → k < s.aux.position p → Dealt s p k

/-- A process that is about to poll. -/
structure Ready (i : Sid) (s : Memory) : Prop where
  remembers : Remembers i [] s
  past : Past i s

/-- A process has a record in hand. -/
structure Held (i : Sid) (p n : Nat) (payload : Notice) (s : Memory) : Prop where
  record : (s.aux.partitions p)[n]? = some (some payload)
  below : ∀ k, k < n → Dealt s p k
  /-- Everything it has got past is dealt with, or is the record in hand. -/
  place : ∀ q k, s.aux.owner q = some i → k < s.aux.position q → Dealt s q k ∨ (q = p ∧ k = n)

/-- The process has completed the handler for a transaction. -/
def Told (i : Sid) (txnId : Option String) (s : Memory) : Prop := txnId ∈ completions i s.trace

def contract : Contract Unit Empty Empty Outside Stmt Inp Exn Unit Unit where
  rely := Relied
  inv := Kept
  post i _ r s := match r with
    | .ok _ => Ready i s
    | .error _ => True

theorem contract_preorder : contract.Preorder where
  refl i s := ⟨rfl, .refl s, fun p k ho hk => .inl ⟨ho, hk⟩⟩
  trans h₁ h₂ := by
    refine ⟨h₂.seen.trans h₁.seen, h₁.grows.trans h₂.grows, fun p k ho hk => ?_⟩
    rcases h₂.place p k ho hk with ⟨ho', hk'⟩ | hd
    · rcases h₁.place p k ho' hk' with hold | hd
      · exact .inl hold
      · exact .inr (h₂.grows.dealt hd)
    · exact .inr hd

/-! ## What others cannot change -/

section stable

variable {i : Sid} {s s' : Memory}

theorem completions_frame (h : Frame engine i s s') :
    completions i s'.trace = completions i s.trace := by
  obtain ⟨l, hl, hn⟩ := h.trace
  rw [hl, completions_others hn]

theorem Remembers.stable {extra : List (Option String)} :
    Stable engine contract i (Remembers i extra) := by
  intro s s' h hr txnId hid
  rw [completions_frame hr.frame] at hid
  rw [hr.rely.seen]
  exact h txnId hid

theorem Told.stable {txnId : Option String} : Stable engine contract i (Told i txnId) :=
  fun _ _ h hr => hr.rely.grows.completions h

theorem Ready.stable : Stable engine contract i (Ready i) := by
  intro s s' h hr
  refine ⟨Remembers.stable s s' h.remembers hr, fun p k ho hk => ?_⟩
  rcases hr.rely.place p k ho hk with ⟨ho', hk'⟩ | hd
  · exact hr.rely.grows.dealt (h.past p k ho' hk')
  · exact hd

theorem Held.stable {p n : Nat} {payload : Notice} :
    Stable engine contract i (Held i p n payload) := by
  intro s s' h hr
  refine ⟨hr.rely.grows.record h.record, fun k hk => hr.rely.grows.dealt (h.below k hk), ?_⟩
  intro q k ho hk
  rcases hr.rely.place q k ho hk with ⟨ho', hk'⟩ | hd
  · exact (h.place q k ho' hk').imp_left hr.rely.grows.dealt
  · exact .inl hd

end stable

/-! ## What a call does -/

/-- **Everything a call can do**: what it is answered, and what is outside afterwards. -/
inductive Did (i : Sid) (o : Outside) : (q : Stmt) → Except Exn q.Ans → Outside → Prop where
  | failed (q : Stmt) (e : Exn) : Did i o q (.error e) o
  | subscribed : Did i o .subscribe (.ok ()) o
  | idle : Did i o .poll (.ok .nothing) o
  | fault (code : Nat) : Did i o .poll (.ok (.error code)) o
  | record {p n : Nat} {v : Value} (owner : o.owner p = some i) (place : n ≤ o.position p)
      (row : (o.partitions p)[n]? = some v) :
      Did i o .poll (.ok (.record p n v))
        { o with position := upd o.position p (max (o.position p) (n + 1)) }
  | asked (txnId : Option String) : Did i o (.isSeen txnId) (.ok (decide (txnId ∈ o.seen i))) o
  | handled (payload : Notice) : Did i o (.handler payload) (.ok ()) o
  | added (txnId : Option String) :
      Did i o (.add txnId) (.ok ()) { o with seen := upd o.seen i (txnId :: o.seen i) }
  | committed (p n : Nat) :
      Did i o (.commit p n) (.ok ()) { o with requested := o.requested ++ [(p, n + 1)] }
  | closed : Did i o .close (.ok ()) (o.leave i)

section calls

variable {i j : Sid} {q : Stmt} {inp : Inp} {o o' : Outside} {s s' : Memory}

theorem did_brokerCall {a : q.Ans} (h : Did i o q (.ok a) o') :
    (brokerCall inp o o' a).ctl = .stay
      ∧ Did i o q (brokerCall inp o o' a).ans (brokerCall inp o o' a).aux := by
  unfold brokerCall
  cases inp.kafkaFault with
  | some c => exact ⟨rfl, .failed q (.kafka c)⟩
  | none => exact ⟨rfl, h⟩

theorem did_run {e : Effect q.Ans} (h : run q inp i o = some e) :
    e.ctl = .stay ∧ Did i o q e.ans e.aux := by
  cases q with
  | subscribe => cases h; exact did_brokerCall .subscribed
  | poll =>
      have h : runPoll inp i o = some e := h
      unfold runPoll at h
      cases hf : inp.fetch with
      | nothing => rw [hf] at h; cases h; exact did_brokerCall .idle
      | error c => rw [hf] at h; cases h; exact did_brokerCall (.fault c)
      | record p n =>
          rw [hf] at h
          by_cases hp : o.owner p = some i ∧ n ≤ o.position p
          · simp only [if_pos hp] at h
            cases hv : (o.partitions p)[n]? with
            | none => rw [hv] at h; exact absurd h (by simp)
            | some v => rw [hv] at h; cases h; exact did_brokerCall (.record hp.1 hp.2 hv)
          · simp only [if_neg hp] at h
            exact absurd h (by simp)
  | isSeen txnId => cases h; exact ⟨rfl, .asked txnId⟩
  | handler payload =>
      cases hr : inp.raises with
      | true =>
          have h : some (if inp.raises then raised o .handler else done o ()) = some e := h
          rw [hr] at h
          cases h
          exact ⟨rfl, .failed _ _⟩
      | false =>
          have h : some (if inp.raises then raised o .handler else done o ()) = some e := h
          rw [hr] at h
          cases h
          exact ⟨rfl, .handled payload⟩
  | add txnId => cases h; exact ⟨rfl, .added txnId⟩
  | commit p n => cases h; exact did_brokerCall (.committed p n)
  | close => cases h; exact ⟨rfl, .closed⟩

/-- A call that is executed. -/
theorem exec_did {r : Except Exn q.Ans} (h : exec engine i () q inp s = some (r, s')) :
    Did i s.aux q r s'.aux
      ∧ s'.trace = s.trace ++ [⟨i, (), q, inp, s.db, s.aux, r.isOk, s.commits.length⟩] := by
  obtain ⟨e, he, -, rfl, rfl⟩ := exec_cases h
  obtain ⟨hstay, hdid⟩ := did_run he
  refine ⟨?_, exec_trace h⟩
  have haux : ((s.observe i () q inp e.ans.isOk).settle engine i () e).aux = e.aux := by
    unfold Store.settle
    rw [hstay]
  rw [haux]
  exact hdid

/-- No call shortens a partition. -/
theorem Did.partitions {r : Except Exn q.Ans} (h : Did i o q r o') :
    o'.partitions = o.partitions := by
  cases h with
  | _ => rfl

/-- Others rely on it: it moves the place of its own partitions only, and its own memory. -/
theorem Did.relied {r : Except Exn q.Ans} (h : Did i s.aux q r s'.aux)
    (hg : Grows s s') (hj : j ≠ i) :
    Relied j s s' := by
  have hother : ∀ {p : Nat}, s.aux.owner p = some i → s.aux.owner p ≠ some j := by
    intro p hi hj'
    exact hj (Option.some.inj (hj'.symm.trans hi))
  generalize ho : s'.aux = o' at h
  cases h with
  | record owner place row =>
      rename_i p n v
      refine ⟨by rw [ho], hg, fun q k hq hk => ?_⟩
      rw [ho] at hq hk
      have hne : q ≠ p := fun he => hother owner (he ▸ hq)
      simp only [upd_ne _ _ hne] at hk
      exact .inl ⟨hq, hk⟩
  | added txnId =>
      refine ⟨by rw [ho]; exact upd_ne _ _ hj, hg, fun q k hq hk => ?_⟩
      rw [ho] at hq hk
      exact .inl ⟨hq, hk⟩
  | closed =>
      refine ⟨by rw [ho]; rfl, hg, fun q k hq hk => ?_⟩
      rw [ho] at hq hk
      have hq : (if s.aux.owner q = some i then none else s.aux.owner q) = some j := hq
      by_cases hi : s.aux.owner q = some i
      · rw [if_pos hi] at hq
        exact absurd hq (by simp)
      · rw [if_neg hi] at hq
        exact .inl ⟨hq, hk⟩
  | _ =>
      refine ⟨by rw [ho], hg, fun q k hq hk => ?_⟩
      rw [ho] at hq hk
      exact .inl ⟨hq, hk⟩

/-- What a call needs for the promises to hold after it. -/
def Licensed (i : Sid) (s : Memory) : Stmt → Prop
  | .handler payload => payload.transactionId ∉ completions i s.trace
  | .add txnId => Told i txnId s
  | .commit p n => (∀ k, k < n + 1 → Dealt s p k)
      ∧ ∃ payload : Notice, (s.aux.partitions p)[n]? = some (some payload)
        ∧ Told i payload.transactionId s
  | .isSeen txnId => txnId ∈ s.aux.seen i ↔ txnId ∈ completions i s.trace
  | _ => True

theorem exec_grows {r : Except Exn q.Ans} (hx : exec engine i () q inp s = some (r, s')) :
    Grows s s' := by
  obtain ⟨hdid, htrace⟩ := exec_did hx
  refine ⟨fun p => by simp [hdid.partitions], ?_⟩
  · rw [htrace]
    exact List.prefix_append _ _

/-- A call completes the handler if it is one and is answered. -/
theorem exec_completions {r : Except Exn q.Ans} (hx : exec engine i () q inp s = some (r, s')) :
    (completions i s'.trace = completions i s.trace
      ∨ ∃ payload, q = .handler payload
        ∧ completions i s'.trace = completions i s.trace ++ [payload.transactionId])
    ∧ ∀ j, j ≠ i → completions j s'.trace = completions j s.trace := by
  obtain ⟨-, htrace⟩ := exec_did hx
  constructor
  · rw [htrace]
    cases hc : completed ⟨i, (), q, inp, s.db, s.aux, r.isOk, s.commits.length⟩ with
    | none => exact .inl (completions_none hc)
    | some txnId =>
        refine .inr ?_
        cases q with
        | handler payload =>
            cases r with
            | error e => exact absurd hc (by simp [completed, Except.isOk, Except.toBool])
            | ok a =>
                refine ⟨payload, rfl, ?_⟩
                rw [completions_append]
                simp [completions, completed, Except.isOk, Except.toBool]
        | _ => exact absurd hc (by simp [completed])
  · intro j hj
    rw [htrace]
    exact completions_others (by simp [hj.symm])

theorem exec_completions_same {r : Except Exn q.Ans} (hx : exec engine i () q inp s = some (r, s'))
    (hq : ∀ payload, q ≠ .handler payload) : completions i s'.trace = completions i s.trace := by
  rcases (exec_completions hx).1 with hsame | ⟨payload, he, -⟩
  · exact hsame
  · exact absurd he (hq payload)

/-- **A licensed call keeps the contract.** -/
theorem exec_guar {r : Except Exn q.Ans} (hi : Kept s)
    (hx : exec engine i () q inp s = some (r, s')) (hl : Licensed i s q) :
    Guar engine contract i s s' := by
  have hg := exec_grows hx
  obtain ⟨hown, hothers⟩ := exec_completions hx
  obtain ⟨hdid, htrace⟩ := exec_did hx
  refine ⟨fun j hj => hdid.relied hg hj, ⟨?_, ?_, ?_, ?_, ?_, ?_, ?_⟩⟩
  · -- a commit is requested for what has been dealt with
    intro x hreq k hk
    have hnew : x ∈ s.aux.requested ∨ ∃ p n, q = .commit p n ∧ x = (p, n + 1) := by
      generalize s'.aux = o' at hdid hreq
      cases hdid with
      | committed p n =>
          rcases List.mem_append.mp hreq with hold | hnew
          · exact .inl hold
          · exact .inr ⟨p, n, rfl, List.mem_singleton.mp hnew⟩
      | _ => exact .inl hreq
    rcases hnew with hold | ⟨p, n, rfl, rfl⟩
    · exact hg.dealt (hi.requested x hold k hk)
    · exact hg.dealt (hl.1 k hk)
  · intro p k hk
    have hsame : s'.aux.committed = s.aux.committed := by
      generalize s'.aux = o' at hdid
      cases hdid with
      | _ => rfl
    rw [hsame] at hk
    exact hg.dealt (hi.committed p k hk)
  · -- the handler is called for a transaction the process has not completed
    intro j
    by_cases hj : j = i
    · subst hj
      rcases hown with hsame | ⟨payload, rfl, hnew⟩
      · rw [hsame]
        exact hi.once j
      · rw [hnew]
        exact List.nodup_append.mpr ⟨hi.once j, by simp, fun a ha b hb hab => by
          rw [List.mem_singleton.mp hb] at hab
          exact hl (hab ▸ ha)⟩
    · rw [hothers j hj]
      exact hi.once j
  · intro j txnId hseen
    have hnew : txnId ∈ s.aux.seen j ∨ (j = i ∧ q = .add txnId) := by
      generalize s'.aux = o' at hdid hseen
      cases hdid with
      | added id =>
          by_cases hj : j = i
          · subst hj
            simp only [upd_self] at hseen
            rcases List.mem_cons.mp hseen with rfl | hold
            · exact .inr ⟨rfl, rfl⟩
            · exact .inl hold
          · simp only [upd_ne _ _ hj] at hseen
            exact .inl hseen
      | _ => exact .inl hseen
    rcases hnew with hold | ⟨rfl, rfl⟩
    · exact hg.completions (hi.seen j txnId hold)
    · exact hg.completions hl
  · intro j hj p k ho hk
    have hji : j ≠ i := by
      intro he
      exact hj ⟨i, (), q, inp, s.db, s.aux, r.isOk, s.commits.length⟩ (by rw [htrace]; simp) he.symm
    rcases (hdid.relied hg hji).place p k ho hk with ⟨ho', hk'⟩ | hd
    · exact hg.dealt (hi.unborn j (fun c hc => hj c (hg.trace.subset hc)) p k ho' hk')
    · exact hd
  · intro c hc p n hq
    rw [htrace, List.mem_append, List.mem_singleton] at hc
    rcases hc with hc | rfl
    · obtain ⟨payload, hrow, htold⟩ := hi.commits c hc p n hq
      exact ⟨payload, hg.record hrow, hg.completions htold⟩
    · have hq : q = .commit p n := hq
      subst hq
      obtain ⟨-, payload, hrow, htold⟩ := hl
      exact ⟨payload, hg.record hrow, hg.completions htold⟩
  · intro k c txnId hk hq
    rw [htrace] at hk ⊢
    by_cases hlt : k < s.trace.length
    · rw [List.getElem?_append_left hlt] at hk
      rw [List.take_append_of_le_length (Nat.le_of_lt hlt)]
      exact hi.asked k c txnId hk hq
    · -- the call is the one just made
      have hlen := (List.getElem?_eq_some_iff.mp hk).1
      rw [List.length_append, List.length_singleton] at hlen
      have hkl : k = s.trace.length := by omega
      subst hkl
      rw [List.getElem?_append_right (Nat.le_refl _), Nat.sub_self] at hk
      cases Option.some.inj hk
      rw [List.take_left]
      have hq : q = .isSeen txnId := hq
      subst hq
      exact hl

end calls

/-! ## One round -/

section round

variable {i : Sid} {p n : Nat} {payload : Notice}

/-- Answers that leave nothing to be remembered. -/
theorem stable_true : Stable engine contract i (fun _ => True) := fun _ _ _ _ => trivial

/-- `poll`: nothing, or a record in hand. -/
theorem triple_poll : Triple engine contract i () (Ready i) (query .poll)
    (fun r s => match r with
      | .ok (.record p n (some payload)) => Held i p n payload s ∧ Remembers i [] s
      | .ok (.record _ _ none) => True
      | .ok _ => Ready i s
      | .error _ => True) := by
  refine .perform Ready.stable ?_ ?_
  · intro r
    cases r with
    | error e => exact stable_true
    | ok a =>
        cases a with
        | nothing => exact Ready.stable
        | error c => exact Ready.stable
        | record p n v =>
            cases v with
            | none => exact stable_true
            | some payload => exact Held.stable.and Remembers.stable
  · intro s inp r s' hi hr hx
    refine ⟨exec_guar hi hx trivial, ?_⟩
    have hg := exec_grows hx
    have hsame := exec_completions_same hx (by simp)
    obtain ⟨hdid, -⟩ := exec_did hx
    generalize ho : s'.aux = o' at hdid
    have hremembers : o'.seen i = s.aux.seen i → Remembers i [] s' := by
      intro hseen txnId hid
      rw [hsame] at hid
      rw [ho, hseen]
      exact hr.remembers txnId hid
    have hready : o' = s.aux → Ready i s' := by
      intro haux
      refine ⟨hremembers (by rw [haux]), fun q k hq hk => ?_⟩
      rw [ho, haux] at hq hk
      exact hg.dealt (hr.past q k hq hk)
    cases hdid with
    | failed => trivial
    | idle => exact hready rfl
    | fault => exact hready rfl
    | record owner place row =>
        rename_i p n v
        cases v with
        | none => trivial
        | some payload =>
            refine ⟨⟨hg.record row, fun k hk => ?_, fun q k hq hk => ?_⟩, hremembers rfl⟩
            · exact hg.dealt (hr.past p k owner (Nat.lt_of_lt_of_le hk place))
            · rw [ho] at hq hk
              by_cases hqp : q = p
              · subst hqp
                simp only [upd_self] at hk
                by_cases hkn : k = n
                · exact .inr ⟨rfl, hkn⟩
                · exact .inl (hg.dealt (hr.past q k owner (by omega)))
              · simp only [upd_ne _ _ hqp] at hk
                exact .inl (hg.dealt (hr.past q k hq hk))

/-- A call of the process about the record in hand: its memory may change, its place does not. -/
theorem Held.exec {q : Stmt} {inp : Inp} {s s' : Memory} {r : Except Exn q.Ans}
    (h : Held i p n payload s) (hx : exec engine i () q inp s = some (r, s'))
    (hq : s'.aux.owner = s.aux.owner ∧ s'.aux.position = s.aux.position) :
    Held i p n payload s' := by
  have hg := exec_grows hx
  refine ⟨hg.record h.record, fun k hk => hg.dealt (h.below k hk), fun q k ho hk => ?_⟩
  rw [hq.1] at ho
  rw [hq.2] at hk
  exact (h.place q k ho hk).imp_left hg.dealt

/-- The record in hand and the memory, and that the record's transaction is completed. -/
def Finished (i : Sid) (p n : Nat) (payload : Notice) (s : Memory) : Prop :=
  Held i p n payload s ∧ Remembers i [] s ∧ Told i payload.transactionId s

theorem Finished.stable : Stable engine contract i (Finished i p n payload) :=
  Held.stable.and (Remembers.stable.and Told.stable)

/-- `txn_id in self.seen` says whether the process has completed the transaction. -/
theorem triple_isSeen : Triple engine contract i ()
    (fun s => Held i p n payload s ∧ Remembers i [] s) (query (.isSeen payload.transactionId))
    (fun r s => match r with
      | .ok true => Finished i p n payload s
      | .ok false => Held i p n payload s ∧ Remembers i [] s
        ∧ payload.transactionId ∉ completions i s.trace
      | .error _ => True) := by
  refine .perform (Held.stable.and Remembers.stable) ?_ ?_
  · intro r
    cases r with
    | error e => exact stable_true
    | ok b =>
        cases b with
        | true => exact Finished.stable
        | false =>
            refine Held.stable.and (Remembers.stable.and ?_)
            intro s s' h hr
            rw [completions_frame hr.frame]
            exact h
  · intro s inp r s' hi ⟨hheld, hrem⟩ hx
    have hcurrent : payload.transactionId ∈ s.aux.seen i
        ↔ payload.transactionId ∈ completions i s.trace :=
      ⟨hi.seen i _, fun hid => (hrem _ hid).resolve_left (by simp)⟩
    refine ⟨exec_guar hi hx hcurrent, ?_⟩
    have hsame := exec_completions_same hx (by simp)
    obtain ⟨hdid, -⟩ := exec_did hx
    generalize ho : s'.aux = o' at hdid
    cases hdid with
    | failed => trivial
    | asked =>
        have hheld' : Held i p n payload s' := hheld.exec hx ⟨by rw [ho], by rw [ho]⟩
        have hrem' : Remembers i [] s' := by
          intro txnId hid
          rw [hsame] at hid
          rw [ho]
          exact hrem txnId hid
        by_cases hin : payload.transactionId ∈ s.aux.seen i
        · rw [decide_eq_true hin]
          refine ⟨hheld', hrem', ?_⟩
          show _ ∈ completions i s'.trace
          rw [hsame]
          exact hcurrent.mp hin
        · rw [decide_eq_false hin]
          refine ⟨hheld', hrem', ?_⟩
          rw [hsame]
          exact fun hid => hin (hcurrent.mpr hid)

/-- A handler that returns has completed its transaction, which is not in memory yet. -/
theorem triple_handler : Triple engine contract i ()
    (fun s => Held i p n payload s ∧ Remembers i [] s
      ∧ payload.transactionId ∉ completions i s.trace) (query (.handler payload))
    (fun r s => match r with
      | .ok _ => Held i p n payload s ∧ Remembers i [payload.transactionId] s
        ∧ Told i payload.transactionId s
      | .error _ => True) := by
  have hpre : Stable engine contract i (fun s => Held i p n payload s ∧ Remembers i [] s
      ∧ payload.transactionId ∉ completions i s.trace) := by
    refine Held.stable.and (Remembers.stable.and ?_)
    intro s s' h hr
    rw [completions_frame hr.frame]
    exact h
  refine .perform hpre ?_ ?_
  · intro r
    cases r with
    | error e => exact stable_true
    | ok a => exact Held.stable.and (Remembers.stable.and Told.stable)
  · intro s inp r s' hi ⟨hheld, hrem, hnew⟩ hx
    refine ⟨exec_guar hi hx hnew, ?_⟩
    obtain ⟨hdid, htrace⟩ := exec_did hx
    generalize ho : s'.aux = o' at hdid
    cases hdid with
    | failed => trivial
    | handled =>
        have htold : completions i s'.trace
            = completions i s.trace ++ [payload.transactionId] := by
          rw [htrace, completions_append]
          simp [completions, completed, Except.isOk, Except.toBool]
        refine ⟨hheld.exec hx ⟨by rw [ho], by rw [ho]⟩, fun txnId hid => ?_, ?_⟩
        · rw [htold, List.mem_append] at hid
          rw [ho]
          rcases hid with hid | hid
          · exact .inr ((hrem txnId hid).resolve_left (by simp))
          · exact .inl hid
        · show _ ∈ completions i s'.trace
          rw [htold]
          simp

/-- `seen.add` brings the memory up to date. -/
theorem triple_add : Triple engine contract i ()
    (fun s => Held i p n payload s ∧ Remembers i [payload.transactionId] s
      ∧ Told i payload.transactionId s) (query (.add payload.transactionId))
    (fun r s => match r with
      | .ok _ => Finished i p n payload s
      | .error _ => True) := by
  refine .perform (Held.stable.and (Remembers.stable.and Told.stable)) ?_ ?_
  · intro r
    cases r with
    | error e => exact stable_true
    | ok a => exact Finished.stable
  · intro s inp r s' hi ⟨hheld, hrem, htold⟩ hx
    refine ⟨exec_guar hi hx htold, ?_⟩
    have hg := exec_grows hx
    have hsame := exec_completions_same hx (by simp)
    obtain ⟨hdid, -⟩ := exec_did hx
    generalize ho : s'.aux = o' at hdid
    cases hdid with
    | failed => trivial
    | added =>
        refine ⟨hheld.exec hx ⟨by rw [ho], by rw [ho]⟩, fun txnId hid => .inr ?_,
          hg.completions htold⟩
        rw [hsame] at hid
        rw [ho]
        show txnId ∈ upd s.aux.seen i _ i
        rw [upd_self]
        rcases hrem txnId hid with hlast | hmem
        · rw [List.mem_singleton.mp hlast]
          exact List.mem_cons_self
        · exact List.mem_cons_of_mem _ hmem

/-- **The record in hand is handled, or its transaction has been before.** -/
theorem triple_handleEvent : Triple engine contract i ()
    (fun s => Held i p n payload s ∧ Remembers i [] s) (handleEvent payload)
    (fun r s => match r with
      | .ok _ => Finished i p n payload s
      | .error _ => True) := by
  refine .bind contract_preorder triple_isSeen (fun b => ?_)
    (fun e => .raise stable_true (fun _ _ _ => trivial))
  cases b with
  | true => exact .ret Finished.stable (fun _ _ h => h)
  | false =>
      refine .bind contract_preorder triple_handler (fun _ => ?_)
        (fun e => .raise stable_true (fun _ _ _ => trivial))
      refine .bind contract_preorder triple_add (fun _ => ?_)
        (fun e => .raise stable_true (fun _ _ _ => trivial))
      exact .ret Finished.stable (fun _ _ h => h)

/-- `commit`: now everything the process has got past is dealt with. -/
theorem triple_commit : Triple engine contract i () (Finished i p n payload) (query (.commit p n))
    (fun r s => match r with
      | .ok _ => Ready i s
      | .error _ => True) := by
  refine .perform Finished.stable ?_ ?_
  · intro r
    cases r with
    | error e => exact stable_true
    | ok a => exact Ready.stable
  · intro s inp r s' hi ⟨hheld, hrem, htold⟩ hx
    have hdealt : Dealt s p n := ⟨payload, hheld.record, i, htold⟩
    have hlicence : ∀ k, k < n + 1 → Dealt s p k := by
      intro k hk
      by_cases hkn : k = n
      · exact hkn ▸ hdealt
      · exact hheld.below k (by omega)
    refine ⟨exec_guar hi hx ⟨hlicence, payload, hheld.record, htold⟩, ?_⟩
    have hg := exec_grows hx
    have hsame := exec_completions_same hx (by simp)
    obtain ⟨hdid, -⟩ := exec_did hx
    generalize ho : s'.aux = o' at hdid
    cases hdid with
    | failed => trivial
    | committed =>
        refine ⟨fun txnId hid => ?_, fun q k hq hk => ?_⟩
        · rw [hsame] at hid
          rw [ho]
          exact hrem txnId hid
        · rw [ho] at hq hk
          rcases hheld.place q k hq hk with hd | ⟨rfl, rfl⟩
          · exact hg.dealt hd
          · exact hg.dealt hdealt

theorem triple_round : Triple engine contract i () (Ready i) round (contract.post i ()) := by
  refine .bind contract_preorder triple_poll (fun msg => ?_)
    (fun e => .raise stable_true (fun _ _ _ => trivial))
  cases msg with
  | nothing => exact .ret Ready.stable (fun _ _ h => h)
  | error c => exact .ret Ready.stable (fun _ _ h => h)
  | record p n v =>
      cases v with
      | none => exact .raise stable_true (fun _ _ _ => trivial)
      | some payload =>
          refine .bind contract_preorder triple_handleEvent (fun _ => ?_)
            (fun e => .raise stable_true (fun _ _ _ => trivial))
          refine triple_commit.conseq (fun _ _ h => h) (fun r s h => ?_)
          cases r with
          | ok a => exact h
          | error e => trivial

/-- An exception goes through `close` on its way out. -/
theorem triple_guarded {q : Tx Unit}
    (h : Triple engine contract i () (Ready i) q (contract.post i ())) :
    Triple engine contract i () (Ready i) (guarded q) (contract.post i ()) := by
  refine .handle contract_preorder h (fun r => ?_)
  cases r with
  | ok a => exact .ret Ready.stable (fun _ _ h => h)
  | error e =>
      have hclose : Triple engine contract i () (fun _ => True) (query .close)
          (fun _ _ => True) := by
        refine .perform stable_true (fun _ => stable_true) ?_
        intro s inp r s' hi _ hx
        exact ⟨exec_guar hi hx trivial, trivial⟩
      refine .bind contract_preorder hclose (fun _ => ?_) (fun e => ?_)
      · exact .raise stable_true (fun _ _ _ => trivial)
      · exact .raise stable_true (fun _ _ _ => trivial)

end round

/-! ## Every run -/

/-- Something outside that is not a call: nothing is taken away, no memory grows, and no place and
no offset is ahead of what has been dealt with. -/
structure Aside (s : Memory) (o : Outside) : Prop where
  partitions : ∀ p, s.aux.partitions p <+: o.partitions p
  seen : ∀ i, o.seen i ⊆ s.aux.seen i
  place : ∀ i p k, o.owner p = some i → k < o.position p →
    (s.aux.owner p = some i ∧ k < s.aux.position p) ∨ Dealt s p k
  requested : ∀ r ∈ o.requested, r ∈ s.aux.requested
  committed : ∀ p k, k < o.committed p → Dealt s p k

theorem Aside.grows {s s' : Memory} (h : Aside s s'.aux) (ht : s'.trace = s.trace) : Grows s s' :=
  ⟨h.partitions, by simp [ht]⟩

theorem Aside.relied {s s' : Memory} (h : Aside s s'.aux) (ht : s'.trace = s.trace) {i : Sid}
    (hseen : s'.aux.seen i = s.aux.seen i) : Relied i s s' :=
  ⟨hseen, h.grows ht, fun p k ho hk => (h.place i p k ho hk).imp_right (h.grows ht).dealt⟩

theorem Aside.kept {s s' : Memory} (h : Aside s s'.aux) (ht : s'.trace = s.trace) (hi : Kept s) :
    Kept s' := by
  have hg := h.grows ht
  refine ⟨fun r hr k hk => hg.dealt (hi.requested r (h.requested r hr) k hk),
    fun p k hk => hg.dealt (h.committed p k hk), ?_, ?_, ?_, ?_, ?_⟩
  · rw [ht]
    exact hi.once
  · intro i txnId hid
    exact hg.completions (hi.seen i txnId (h.seen i hid))
  · intro i hnone p k ho hk
    rw [ht] at hnone
    rcases h.place i p k ho hk with ⟨ho', hk'⟩ | hd
    · exact hg.dealt (hi.unborn i hnone p k ho' hk')
    · exact hg.dealt hd
  · intro c hc p n hq
    rw [ht] at hc
    obtain ⟨payload, hrow, htold⟩ := hi.commits c hc p n hq
    exact ⟨payload, hg.record hrow, hg.completions htold⟩
  · rw [ht]
    exact hi.asked

theorem aside_move {s : Memory} (hi : Kept s) {x : Move} {o : Outside}
    (hx : s.aux.move x = some o) :
    Aside s o ∧ o.seen = s.aux.seen := by
  have hstay : ∀ {i : Sid} {p k : Nat}, s.aux.owner p = some i → k < s.aux.position p →
      (s.aux.owner p = some i ∧ k < s.aux.position p) ∨ Dealt s p k := fun ho hk => .inl ⟨ho, hk⟩
  cases x with
  | append p v =>
      cases hx
      refine ⟨⟨fun q => ?_, fun _ _ h => h, fun _ _ _ => hstay, fun _ h => h, hi.committed⟩, rfl⟩
      show s.aux.partitions q <+: upd s.aux.partitions p (s.aux.partitions p ++ [v]) q
      by_cases hq : q = p
      · subst hq
        rw [upd_self]
        exact List.prefix_append _ _
      · simp [upd_ne _ _ hq]
  | assign p i =>
      cases hx
      refine ⟨⟨fun q => List.prefix_refl _, fun _ _ h => h, fun j q k ho hk => ?_, fun _ h => h,
        hi.committed⟩, rfl⟩
      by_cases hq : q = p
      · subst hq
        simp only [upd_self] at hk
        exact .inr (hi.committed q k hk)
      · simp only [upd_ne _ _ hq] at ho hk
        exact hstay ho hk
  | settle index =>
      rw [Outside.move] at hx
      cases hr : s.aux.requested[index]? with
      | none => rw [hr] at hx; exact absurd hx (by simp)
      | some r =>
          obtain ⟨p, n⟩ := r
          rw [hr] at hx
          cases hx
          refine ⟨⟨fun q => List.prefix_refl _, fun _ _ h => h, fun _ _ _ => hstay,
            fun r h => List.mem_of_mem_eraseIdx h, fun q k hk => ?_⟩, rfl⟩
          by_cases hq : q = p
          · subst hq
            simp only [upd_self] at hk
            exact hi.requested (q, n) (List.mem_of_getElem? hr) k hk
          · simp only [upd_ne _ _ hq] at hk
            exact hi.committed q k hk
  | lose index =>
      cases hx
      exact ⟨⟨fun q => List.prefix_refl _, fun _ _ h => h, fun _ _ _ => hstay,
        fun r h => List.mem_of_mem_eraseIdx h, hi.committed⟩, rfl⟩

/-- A process that dies loses its memory and nothing else. -/
theorem aside_crash {s : Memory} (hi : Kept s) (i : Sid) : Aside s (engine.crash i s.aux) where
  partitions _ := List.prefix_refl _
  seen j := by
    show upd s.aux.seen i [] j ⊆ s.aux.seen j
    by_cases hj : j = i
    · subst hj
      rw [upd_self]
      exact List.nil_subset _
    · rw [upd_ne _ _ hj]
      exact fun _ h => h
  place _ _ _ ho hk := .inl ⟨ho, hk⟩
  requested _ h := h
  committed := hi.committed

/-- `subscribe` may fail, and then the process ends. -/
def ReadyIf (i : Sid) : Except Exn Unit → Memory → Prop
  | .ok _ => Ready i
  | .error _ => fun _ => True

theorem contract_sound : Sound system contract (Store.init () Outside.start) where
  pre := contract_preorder
  init := by
    refine ⟨⟨by simp [Store.init, Outside.start], by simp [Store.init, Outside.start], fun i => ?_,
      by simp [Store.init, Outside.start], by simp [Store.init,
        Outside.start], by simp [Store.init],
      by simp [Store.init]⟩, fun i => .init i _ _⟩
    exact List.nodup_nil
  start := by
    intro i t s hi hf
    have hready : Ready i s := by
      refine ⟨fun txnId hid => ?_, fun p k ho hk => hi.unborn i hf.trace p k ho hk⟩
      have hnil : completions i ([] ++ s.trace) = completions i [] := completions_others hf.trace
      rw [List.nil_append] at hnil
      rw [hnil] at hid
      exact absurd hid (by simp [completions])
    have hsubscribe : Triple engine contract i () (Ready i) (query .subscribe) (ReadyIf i) := by
      refine .perform Ready.stable ?_ ?_
      · intro r
        cases r with
        | error e => exact stable_true
        | ok a => exact Ready.stable
      · intro s inp r s' hi hr hx
        refine ⟨exec_guar hi hx trivial, ?_⟩
        have hg := exec_grows hx
        have hsame := exec_completions_same hx (by simp)
        obtain ⟨hdid, -⟩ := exec_did hx
        generalize ho : s'.aux = o' at hdid
        cases hdid with
        | failed => trivial
        | subscribed =>
            refine ⟨fun txnId hid => ?_, fun p k hp hk => ?_⟩
            · rw [hsame] at hid
              rw [ho]
              exact hr.remembers txnId hid
            · rw [ho] at hp hk
              exact hg.dealt (hr.past p k hp hk)
    have hrun : Triple engine contract i () (Ready i) runForever (contract.post i ()) :=
      .bind contract_preorder hsubscribe (fun _ => triple_guarded triple_round)
        (fun e => .raise stable_true (fun _ _ _ => trivial))
    exact hrun s hi hready
  again := by
    intro i t p a s hag hi hready
    cases hag
    exact triple_guarded triple_round s hi hready
  crash := by
    intro i s hi
    have haside : Aside s (s.drop engine i).aux := aside_crash hi i
    exact ⟨fun j hj => haside.relied rfl (upd_ne _ _ hj), haside.kept rfl hi⟩
  env := by
    intro x o s hi hx
    obtain ⟨haside, hseen⟩ := aside_move hi hx
    have haside : Aside s ({ s with aux := o } : Memory).aux := haside
    exact ⟨fun j => haside.relied rfl (congrFun hseen j), haside.kept rfl hi⟩

/-! ## A call of `handle_event` -/

section alone

variable {i : Sid} {s : Memory} {payload : Notice}

/-- A call that takes no lock is executed at once. -/
theorem exec_now {q : Stmt} {inp : Inp} {e : Effect q.Ans} (he : run q inp i s.aux = some e)
    (hlocks : e.locks = []) :
    ∃ s', exec engine i () q inp s = some (e.ans, s') ∧ s'.aux = e.aux := by
  obtain ⟨s', hx⟩ := exec_lockFree (E := engine) (t := ()) (s := s) he hlocks
  obtain ⟨e', he', -, -, rfl⟩ := exec_cases hx
  cases Option.some.inj (he.symm.trans he')
  refine ⟨_, hx, ?_⟩
  unfold Store.settle
  rw [(did_run he).1]

/-- The memory does not have the transaction. -/
theorem isSeen_now (inp : Inp) (hnew : payload.transactionId ∉ s.aux.seen i) :
    ∃ s', runAlone engine i () inp (query (.isSeen payload.transactionId)) s = some (.ok false, s')
      ∧ s'.aux = s.aux := by
  have hrun : run (.isSeen payload.transactionId) inp i s.aux
      = some (done s.aux (decide (payload.transactionId ∈ s.aux.seen i))) := rfl
  obtain ⟨s', hx, haux⟩ := exec_now hrun rfl
  have hfalse : decide (payload.transactionId ∈ s.aux.seen i) = false := decide_eq_false hnew
  refine ⟨s', ?_, haux⟩
  rw [← hfalse]
  exact runAlone_perform.trans hx

/-- A handler that raises leaves the memory as it is. -/
theorem handleEvent_raises (inp : Inp) (hnew : payload.transactionId ∉ s.aux.seen i)
    (hr : inp.raises = true) :
    ∃ s', runAlone engine i () inp (handleEvent payload) s = some (.error .handler, s')
      ∧ s'.aux = s.aux := by
  obtain ⟨s₁, h₁, haux₁⟩ := isSeen_now inp hnew
  have hraise : run (.handler payload) inp i s₁.aux = some (raised s₁.aux .handler) := by
    show some (if inp.raises then _ else _) = _
    rw [hr]
    rfl
  obtain ⟨s₂, hx, haux₂⟩ := exec_now hraise rfl
  refine ⟨s₂, (runAlone_bind h₁).trans ?_, haux₂.trans haux₁⟩
  exact runAlone_bind_error (runAlone_perform.trans hx)

/-- One that returns has its transaction added. -/
theorem handleEvent_handles (inp : Inp) (hnew : payload.transactionId ∉ s.aux.seen i)
    (hr : inp.raises = false) :
    ∃ s', runAlone engine i () inp (handleEvent payload) s = some (.ok true, s')
      ∧ s'.aux.seen i = payload.transactionId :: s.aux.seen i := by
  obtain ⟨s₁, h₁, haux₁⟩ := isSeen_now inp hnew
  have hreturn : run (.handler payload) inp i s₁.aux = some (done s₁.aux ()) := by
    show some (if inp.raises then _ else _) = _
    rw [hr]
    rfl
  obtain ⟨s₂, h₂, haux₂⟩ := exec_now hreturn rfl
  have hadd : run (.add payload.transactionId) inp i s₂.aux = some (done
      { s₂.aux with seen := upd s₂.aux.seen i (payload.transactionId :: s₂.aux.seen i) } ()) := rfl
  obtain ⟨s₃, h₃, haux₃⟩ := exec_now hadd rfl
  refine ⟨s₃, (runAlone_bind h₁).trans ((runAlone_bind (runAlone_perform.trans h₂)).trans
    ((runAlone_bind (runAlone_perform.trans h₃)).trans rfl)), ?_⟩
  rw [haux₃]
  show upd s₂.aux.seen i _ i = _
  rw [upd_self, haux₂]
  show _ :: s₁.aux.seen i = _
  rw [haux₁]

end alone

/-- **At least once and at most once.** Behind the committed offsets there are only records whose
transaction has been notified; a process that requests such a commit has notified the record's
transaction itself; no process notifies a transaction twice; and a process skips exactly what it has
notified, so that an event whose handler has raised is handled when it is delivered again. -/
theorem reached_notified (w : World Unit Empty Empty Outside Stmt Inp Exn Unit Unit Stmt.Ans)
    (h : Reached w) :
    (∀ p n, n < w.store.aux.committed p →
      ∃ payload : Notice, (w.store.aux.partitions p)[n]? = some (some payload)
        ∧ Notified w.store.trace payload.transactionId)
    ∧ (∀ c ∈ w.store.trace, ∀ p n, c.stmt = .commit p n →
      ∃ payload : Notice, (w.store.aux.partitions p)[n]? = some (some payload)
        ∧ payload.transactionId ∈ completions c.sid w.store.trace)
    ∧ (∀ i, (completions i w.store.trace).Nodup)
    ∧ (∀ (k : Nat) (c : Call) txnId, w.store.trace[k]? = some c → c.stmt = .isSeen txnId →
      (txnId ∈ c.aux.seen c.sid ↔ txnId ∈ completions c.sid (w.store.trace.take k)))
    ∧ ∀ i (payload : Notice), payload.transactionId ∉ w.store.aux.seen i →
      ∃ s₁ s₂, runAlone engine i () { raises := true } (handleEvent payload) w.store
          = some (.error .handler, s₁)
        ∧ s₁.aux.seen = w.store.aux.seen
        ∧ runAlone engine i () {} (handleEvent payload) s₁ = some (.ok true, s₂)
        ∧ s₂.aux.seen i = payload.transactionId :: w.store.aux.seen i := by
  have hi : Kept w.store := (contract_sound.reachable h).inv
  refine ⟨hi.committed, hi.commits, hi.once, hi.asked, fun i payload hnew => ?_⟩
  obtain ⟨s₁, h₁, haux⟩ := handleEvent_raises (s := w.store) { raises := true } hnew rfl
  have hnew₁ : payload.transactionId ∉ s₁.aux.seen i := by
    rw [haux]
    exact hnew
  obtain ⟨s₂, h₂, hseen⟩ := handleEvent_handles (s := s₁) {} hnew₁ rfl
  exact ⟨s₁, s₂, h₁, by rw [haux], h₂, by rw [hseen, haux]⟩

/-- Two records of one transaction. The handler of the first process raises; the second process
handles the first record, skips the second, and commits both. -/
def raisedOnce : List (Action Unit Inp Move) :=
  [.env (.append 0 (some ⟨some "t"⟩)), .env (.append 0 (some ⟨some "t"⟩)), .spawn (), .exec 0 {},
    .env (.assign 0 0), .exec 0 { fetch := .record 0 0 }, .exec 0 {}, .exec 0 { raises := true },
    .exec 0 {}, .spawn (), .exec 1 {}, .env (.assign 0 1), .exec 1 { fetch := .record 0 0 },
    .exec 1 {}, .exec 1 {}, .exec 1 {}, .exec 1 {}, .exec 1 {}, .exec 1 { fetch := .record 0 1 },
    .exec 1 {}, .exec 1 {}, .env (.settle 0), .env (.settle 0)]

theorem raisedOnce_notified : ∃ w : World Unit Empty Empty Outside Stmt Inp Exn Unit Unit Stmt.Ans,
    (Reached w ∧ w.store.aux.committed 0 = 2 ∧ completions 0 w.store.trace = []
      ∧ completions 1 w.store.trace = [some "t"])
    ∧ (∀ p n, n < w.store.aux.committed p →
      ∃ payload : Notice, (w.store.aux.partitions p)[n]? = some (some payload)
        ∧ Notified w.store.trace payload.transactionId)
    ∧ (∀ c ∈ w.store.trace, ∀ p n, c.stmt = .commit p n →
      ∃ payload : Notice, (w.store.aux.partitions p)[n]? = some (some payload)
        ∧ payload.transactionId ∈ completions c.sid w.store.trace)
    ∧ (∀ i, (completions i w.store.trace).Nodup)
    ∧ (∀ (k : Nat) (c : Call) txnId, w.store.trace[k]? = some c → c.stmt = .isSeen txnId →
      (txnId ∈ c.aux.seen c.sid ↔ txnId ∈ completions c.sid (w.store.trace.take k)))
    ∧ ∀ i (payload : Notice), payload.transactionId ∉ w.store.aux.seen i →
      ∃ s₁ s₂, runAlone engine i () { raises := true } (handleEvent payload) w.store
          = some (.error .handler, s₁)
        ∧ s₁.aux.seen = w.store.aux.seen
        ∧ runAlone engine i () {} (handleEvent payload) s₁ = some (.ok true, s₂)
        ∧ s₂.aux.seen i = payload.transactionId :: w.store.aux.seen i := by
  have hrun : (system.runs (World.init (Store.init () Outside.start)) raisedOnce).map (fun w =>
      (w.store.aux.committed 0, completions 0 w.store.trace, completions 1 w.store.trace))
      = some (2, [], [some "t"]) := by decide +kernel
  obtain ⟨w, hw, hv⟩ := Option.map_eq_some_iff.mp hrun
  have hr : Reached w := Reachable.init.runs hw
  exact ⟨w, ⟨hr, congrArg Prod.fst hv, congrArg (fun v => v.2.1) hv, congrArg (fun v => v.2.2) hv⟩,
    reached_notified w hr⟩

end Notifications

end WalletLedger
