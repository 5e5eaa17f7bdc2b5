import Mathlib.Order.WithBot
import WalletLedger.Isolation.Deadlock
import WalletLedger.Isolation.Trail
import WalletLedger.Proof.Ledger

/-!
# The order of the locks

A money operation locks its wallets in ascending order of their ids, then inserts its
transaction, and with it takes its idempotency key. So wallets rank by their ids and keys
rank above all wallets, and every program climbs: at every statement, whatever it asks
for and does not hold ranks above what it holds. After the key an operation asks only for
the wallets it has locked.
-/

namespace WalletLedger

open Isolation Prog

/-- The rank of what requests contend for. -/
def lockRank : Res → Option (WithTop Uuid)
  | .wallet id => some (WithTop.some id)
  | .idempotencyKey _ => some ⊤
  | _ => none

/-- The statements that may ask for a ranked resource. -/
def Stmt.ranked : Stmt → Bool
  | .selectWalletForUpdate _ | .updateBalance _ _ | .insertWallet _ _ => true
  | .insertTransaction _ _ _ key => key.isSome
  | _ => false

theorem run_unranked {q : Stmt} (hq : q.ranked = false) {inp : Inp} {i : Sid}
    {db : Db} {o : Outside}
    {e : Effect Write Res Outside Exn q.Ans} (h : run q inp i db o = some e) :
    ∀ r ∈ e.locks, lockRank r = none := by
  intro r hr
  rcases run_locks h r hr with ⟨w, hw, hr⟩ | ⟨id, rfl, -⟩
  · cases q with
    | insertTransaction type status currency key =>
        cases key with
        | some k => exact absurd hq (by simp [Stmt.ranked])
        | none =>
            cases hw
            simp only [Write.footprint, Option.toList_none, List.map_nil, List.mem_singleton] at hr
            rw [hr]
            rfl
    | updateBalance | insertWallet => exact absurd hq (by simp [Stmt.ranked])
    | insertUser =>
        cases hw
        simp only [Write.footprint, List.mem_cons, List.not_mem_nil, or_false] at hr
        rcases hr with rfl | rfl
        · rfl
        · rfl
    | updateStatus | insertEntry | insertEvent | updatePublished | insertProcessed | insertStat
    | updateStat =>
        cases hw
        rw [List.mem_singleton.mp hr]
        rfl
    | _ => exact absurd hw (by simp [Stmt.write])
  · exact absurd hq (by simp [Stmt.ranked])

/-! ## Programs that ask for nothing ranked -/

/-- A program whose statements ask for nothing ranked. -/
def Calm {α : Type} (p : Tx α) : Prop := p.Uses (fun q => q.ranked = false)

theorem Calm.query {q : Stmt} (h : q.ranked = false) : Calm (query q) := Uses.perform h

theorem Calm.bind {α β : Type} {p : Tx α} {f : α → Tx β} (hp : Calm p) (hf : ∀ a, Calm (f a)) :
    Calm (p >>= f) := Uses.bind hp hf

theorem Calm.attempt {α : Type} {p : Tx α} (hp : Calm p) : Calm p.attempt := Uses.attempt hp

theorem Calm.raiseIf (c : Prop) [Decidable c] (e : Exn) :
    Calm (Prog.raiseIf c e) := Uses.raiseIf c e

theorem Calm.withSession {α β : Type} {p : Tx α} {f : α → β} (hp : Calm p) :
    Calm (withSession (f <$> p)) := uses_withSession hp rfl

theorem Calm.climbs {α : Type} {p : Tx α} (hp : Calm p) {i : Sid} {H : Set Res} :
    Climbs engine lockRank i p (fun _ H' => H' = H ∨ H' = ∅) H :=
  Climbs.uses hp (fun _ hq _ _ _ _ he => run_unranked hq he)

/-- A commit with a conflict handler around it. -/
theorem calm_commit {α : Type} {f : Except Exn Unit → Tx α} (hf : ∀ r, Calm (f r)) :
    Calm ((query .commit).attempt >>= f) := .bind (.attempt (.query rfl)) hf

theorem calm_replay (key : Option String) (id : Uuid) : Calm (LedgerService.replay key id) := by
  unfold LedgerService.replay
  by_cases h : LedgerService.truthy key = true
  · rw [if_pos h]
    refine .bind (.query rfl) (fun r => ?_)
    cases r with
    | some t => exact .bind (.query rfl) (fun _ => trivial)
    | none => trivial
  · rw [if_neg h]
    trivial

theorem calm_commitKeyed (txn : Transaction) (key : Option String) (id : Uuid) :
    Calm (LedgerService.commitKeyed txn key id) := by
  refine calm_commit (fun r => ?_)
  cases r with
  | ok _ => exact .bind (.query rfl) (fun _ => .bind (.query rfl) (fun _ => trivial))
  | error e =>
      cases e with
      | db e =>
          cases e with
          | integrity =>
              show Calm (query .rollback >>= _)
              refine .bind (.query rfl) (fun _ => .bind (calm_replay key id) (fun r => ?_))
              cases r with
              | some r => trivial
              | none => trivial
          | _ => trivial
      | _ => trivial

theorem calm_recordEvent (txn : Transaction) (amount : Int) (w : Uuid) (c : Option Uuid) :
    Calm (LedgerService.recordEvent txn amount w c) :=
  .bind (.query rfl) (fun _ => .bind (.query rfl) (fun _ => trivial))

theorem calm_invalidate (ids : List Uuid) : Calm (BalanceCache.invalidate ids) := by
  unfold BalanceCache.invalidate
  by_cases h : ids = []
  · rw [if_pos h]
    trivial
  · rw [if_neg h]
    exact .bind (.attempt (.query rfl)) (fun _ => trivial)

theorem calm_register [Runtime] (data : UserCreate) : Calm (UserService.register data) := by
  refine .bind (.query rfl) (fun _ => .bind (.raiseIf _ _) (fun _ => .bind (.query rfl) ?_))
  refine fun _ => .bind (.bind (.query rfl) (fun _ => .query rfl)) (fun _ => ?_)
  refine calm_commit (fun r => ?_)
  cases r with
  | ok _ => exact .query rfl
  | error e =>
      cases e with
      | db e =>
          cases e with
          | integrity => exact .bind (.query rfl) (fun _ => trivial)
          | _ => trivial
      | _ => trivial

theorem calm_handleEvent (p : Payload) : Calm (AnalyticsService.handleEvent p) := by
  refine .bind (.bind (.query rfl) (fun _ => trivial)) (fun b => ?_)
  cases b with
  | true => trivial
  | false =>
      have hinc : Calm (TransactionStatRepository.increment p.currency p.type p.amount) := by
        refine .bind (.query rfl) (fun r => ?_)
        cases r with
        | none => exact .query rfl
        | some stat => exact .query rfl
      refine .bind (.query rfl) (fun _ => .bind hinc (fun _ => calm_commit (fun r => ?_)))
      cases r with
      | ok _ => trivial
      | error e =>
          cases e with
          | db e =>
              cases e with
              | integrity => exact .bind (.query rfl) (fun _ => trivial)
              | _ => trivial
          | _ => trivial

theorem calm_handleForeign (txnId : Option Uuid) : Calm (AnalyticsService.handleForeign txnId) := by
  cases txnId with
  | none => trivial
  | some txnId =>
      refine .bind (.bind (.query rfl) (fun _ => trivial)) (fun b => ?_)
      cases b with
      | true => trivial
      | false => exact .bind (.query rfl) (fun _ => trivial)

theorem calm_publishBatch (producer : Nat) (topic : String) (n : Nat) :
    Calm (OutboxPublisher.publishBatch producer topic n) := by
  have hproduce : ∀ events errors,
      Calm (OutboxPublisher.produceAll producer topic events errors) := by
    intro events
    induction events with
    | nil => exact fun _ => trivial
    | cons e events ih => exact fun _ => .bind (.query rfl) (fun _ => ih _)
  have hmark : ∀ events, Calm (OutboxPublisher.markAll events) := by
    intro events
    induction events with
    | nil => trivial
    | cons e events ih =>
        exact .bind (.bind (.query rfl)
          (fun _ => .bind (.query rfl) (fun _ => trivial))) (fun _ => ih)
  refine .bind (.query rfl) (fun events => ?_)
  show Calm (if events = [] then _ else _)
  by_cases h : events = []
  · rw [if_pos h]
    trivial
  · rw [if_neg h]
    refine .bind (hproduce _ _) (fun _ => .bind (.query rfl) (fun _ => ?_))
    exact .bind (.raiseIf _ _) (fun _ => .bind (hmark _) (fun _ => trivial))

theorem calm_iteration (producer : Nat) (topic : String) (n : Nat) :
    Calm (OutboxPublisher.iteration producer topic n) := by
  refine .bind (.attempt (.bind (calm_publishBatch _ _ _) (fun _ => ?_))) (fun r => ?_)
  · exact .bind (.query rfl) (fun _ => trivial)
  · cases r with
    | ok n => exact .bind (.query rfl) (fun _ => trivial)
    | error e => exact .bind (.query rfl) (fun _ => .bind (.query rfl) (fun _ => trivial))

theorem calm_guardedRound : Calm (AnalyticsConsumer.guarded AnalyticsConsumer.round) := by
  have hrecord : ∀ p n {handler : Tx Bool}, Calm handler
      → Calm (AnalyticsConsumer.handleRecord p n handler) :=
    fun _ _ _ h => .bind (.attempt h) (fun _ => .bind (.query rfl) (fun _ => .query rfl))
  have hround : Calm AnalyticsConsumer.round := by
    refine .bind (.query rfl) (fun msg => ?_)
    cases msg with
    | nothing => trivial
    | error c => trivial
    | record part offset value =>
        cases value with
        | malformed => trivial
        | foreign txnId => exact hrecord _ _ (calm_handleForeign txnId)
        | event payload => exact hrecord _ _ (calm_handleEvent payload)
  refine Uses.handle hround (fun r => ?_)
  cases r with
  | ok a => trivial
  | error e => exact Calm.bind (.query rfl) (fun _ => trivial)

/-! ## Programs that lock wallets -/

section climbing

variable {i : Sid} {H : Set Res} {β γ : Type}

/-- Nothing has been let go, unless the program has failed. -/
def Kept (H : Set Res) (r : Except Exn β) (H' : Set Res) : Prop := ∀ a, r = .ok a → H ⊆ H'

/-- How it ends does not matter. -/
abbrev Anyhow (_ : Except Exn β) (_ : Set Res) : Prop := True

theorem Calm.anyhow {p : Tx β} (hp : Calm p) : Climbs engine lockRank i p Anyhow H :=
  hp.climbs.mono (fun _ _ _ => trivial)

/-- On after a program that lets nothing go. -/
theorem climbs_next {p : Tx β} {f : β → Tx γ} (hp : Climbs engine lockRank i p (Kept H) H)
    (hf : ∀ a H', H ⊆ H' → Climbs engine lockRank i (f a) Anyhow H') :
    Climbs engine lockRank i (p >>= f) Anyhow H :=
  hp.bind (fun a H' h => hf a H' (h a rfl)) (fun _ _ _ => trivial)

theorem climbs_raiseIf {c : Prop} [Decidable c] {e : Exn} {f : Unit → Tx γ}
    (hf : Climbs engine lockRank i (f ()) Anyhow H) :
    Climbs engine lockRank i (Prog.raiseIf c e >>= f) Anyhow H := by
  unfold Prog.raiseIf
  by_cases hc : c
  · rw [if_pos hc]
    trivial
  · rw [if_neg hc]
    exact hf

/-- One statement that goes on with the transaction when it is answered. -/
theorem climbs_statement {q : Stmt}
    (hstay : ∀ inp db o e a, run q inp i db o = some e → e.ans = .ok a → e.ctl = .stay)
    (habove : ∀ inp db o e, run q inp i db o = some e → Above lockRank H e.locks) :
    Climbs engine lockRank i (query q) (Kept H) H := by
  refine .perform (fun inp db o e he => ⟨habove inp db o e he, fun a ha => ?_⟩)
  unfold Effect.held
  rw [hstay inp db o e a he ha]
  exact Set.subset_union_left

/-- A statement that asks for nothing ranked. -/
theorem climbs_unranked {q : Stmt} (hq : q.ranked = false)
    (hstay : ∀ inp db o e a, run q inp i db o = some e → e.ans = .ok a → e.ctl = .stay) :
    Climbs engine lockRank i (query q) (Kept H) H := by
  refine climbs_statement hstay (fun inp db o e he r hr _ x hx => ?_)
  rw [run_unranked hq he r hr] at hx
  exact absurd hx (by simp)

theorem climbs_createEntry (txn : Uuid) (type : EntryType) (amount : Int) (currency : String)
    (w : Option Uuid) (account : Option String) :
    Climbs engine lockRank i (LedgerRepository.createEntry txn type amount currency w account)
      (Kept H) H := by
  refine climbs_unranked rfl (fun inp db o e a he ha => ?_)
  cases he
  exact congrArg Effect.ctl (writes_ok ha).2.2.2

/-- The key ranks above all wallets. -/
theorem climbs_create (type : TransactionType) (currency : String) (key : Option String)
    (hH : ∀ r ∈ H, ∃ id, r = .wallet id) :
    Climbs engine lockRank i (TransactionRepository.create type currency key) (Kept H) H := by
  have hinsert : Climbs engine lockRank i (query (.insertTransaction type .pending currency key))
      (Kept H) H := by
    refine climbs_statement (fun inp db o e a he ha => ?_)
      (fun inp db o e he r hr _ x hx h hh y hy => ?_)
    · cases he
      exact congrArg Effect.ctl (writes_ok ha).2.2.2
    · obtain ⟨id, rfl⟩ := hH h hh
      cases hy
      rcases run_locks he r hr with ⟨w, hw, hr⟩ | ⟨id', hq, -⟩
      · cases hw
        rcases List.mem_cons.mp hr with rfl | hr
        · exact absurd hx (by simp [lockRank])
        · obtain ⟨k, -, rfl⟩ := List.mem_map.mp hr
          cases hx
          exact WithTop.coe_lt_top id
      · exact absurd hq (by simp)
  refine hinsert.bind (fun txn H' h => ?_) (fun e H' _ a ha => absurd ha (by simp))
  have hsub : H ⊆ H' := h txn rfl
  refine (climbs_unranked (H := H') (q := .refreshTransaction txn.id) rfl
    (fun inp db o e a he ha => ?_)).mono
    (fun r H'' h a ha => hsub.trans (h a ha))
  cases he
  exact congrArg Effect.ctl (refreshes_ok ha).2

/-- Balances are written to wallets that are locked already. -/
theorem climbs_flushWallets {ws : List Wallet} (hws : ∀ w ∈ ws, Res.wallet w.id ∈ H) :
    Climbs engine lockRank i (TransactionRepository.flushWallets ws) (Kept H) H := by
  induction ws generalizing H with
  | nil => exact fun _ _ => Set.Subset.refl H
  | cons w ws ih =>
      have hupdate : Climbs engine lockRank i (query (.updateBalance w.id w.availableBalance))
          (Kept H) H := by
        refine climbs_statement (fun inp db o e a he ha => ?_) (fun inp db o e he r hr hnot => ?_)
        · cases he
          exact congrArg Effect.ctl (writes_ok ha).2.2.2
        · rcases run_locks he r hr with ⟨w', hw', hr⟩ | ⟨id', hq, -⟩
          · cases hw'
            rw [List.mem_singleton.mp hr] at hnot
            exact absurd (hws w (by simp)) hnot
          · exact absurd hq (by simp)
      refine hupdate.bind (fun u H' h => ?_) (fun e H' _ a ha => absurd ha (by simp))
      have hsub : H ⊆ H' := h u rfl
      refine (ih (fun v hv => hsub (hws v (by simp [hv])))).mono (fun r H'' h a ha => ?_)
      exact hsub.trans (h a ha)

/-- **The common tail of the money operations climbs**, with its wallets locked. -/
theorem climbs_book {mv : Movement} {k : Transaction → Tx γ} (hk : ∀ txn, Calm (k txn))
    (hH : ∀ r ∈ H, ∃ id, r = .wallet id) (hws : ∀ w ∈ mv.wallets, Res.wallet w.id ∈ H) :
    Climbs engine lockRank i (book mv k) Anyhow H := by
  have hdirty : ∀ w ∈ TransactionRepository.inKeyOrder mv.dirty, Res.wallet w.id ∈ H := by
    intro w hw
    rw [TransactionRepository.inKeyOrder, List.mem_insertionSort, Movement.dirty,
      List.mem_append] at hw
    obtain ⟨v, hv, hid⟩ : ∃ v ∈ mv.wallets, v.id = w.id := by
      rcases hw with hw | hw
      · cases hs : mv.source with
        | funding => rw [hs] at hw; exact absurd hw (by simp [Side.dirty])
        | wallet v =>
            rw [hs] at hw
            refine ⟨v, by simp [Movement.wallets, Side.wallets, hs], ?_⟩
            rw [List.mem_singleton.mp hw]
      · cases ht : mv.target with
        | funding => rw [ht] at hw; exact absurd hw (by simp [Side.dirty])
        | wallet v =>
            rw [ht] at hw
            refine ⟨v, by simp [Movement.wallets, Side.wallets, ht], ?_⟩
            rw [List.mem_singleton.mp hw]
    rw [← hid]
    exact hws v hv
  refine climbs_next (climbs_create _ _ _ hH) (fun txn H₁ h₁ => ?_)
  refine climbs_next (climbs_createEntry _ _ _ _ _ _) (fun _ H₂ h₂ => ?_)
  refine climbs_next (climbs_createEntry _ _ _ _ _ _) (fun _ H₃ h₃ => ?_)
  have hmark : Climbs engine lockRank i (TransactionRepository.markCompleted mv.dirty
      txn) Anyhow H₃ := by
    refine climbs_next (climbs_unranked (q := .updateStatus txn.id .completed) rfl
      (fun inp db o e a he ha => ?_)) (fun _ H₄ h₄ => ?_)
    · cases he
      exact congrArg Effect.ctl (writes_ok ha).2.2.2
    · refine climbs_next (climbs_flushWallets (fun w hw => ?_)) (fun _ _ _ => trivial)
      exact h₄ (h₃ (h₂ (h₁ (hdirty w hw))))
  -- from here on nothing ranked is asked for
  refine hmark.bind (fun txn H₄ _ => ?_) (fun _ _ _ => trivial)
  exact (Calm.bind (calm_recordEvent _ _ _ _) (fun _ => hk txn)).anyhow

/-- A wallet is locked above those that are locked already. -/
theorem climbs_getWithLock {id : Uuid} (hH : ∀ x ∈ H, ∃ id', x = .wallet id' ∧ id' < id) :
    Climbs engine lockRank i (WalletRepository.getWithLock id)
      (fun r H' => ∀ a, r = .ok a → H ⊆ H' ∧ (∀ x ∈ H', x ∈ H ∨ x = .wallet id)
        ∧ ∀ w, a = some w → w.id = id ∧ Res.wallet id ∈ H') H := by
  refine .perform (fun inp db o e he => ⟨fun r hr _ x hx h hh y hy => ?_, fun a ha => ?_⟩)
  · obtain ⟨id', rfl, hlt⟩ := hH h hh
    cases hy
    have he : run (.selectWalletForUpdate id) inp i db o = some e := he
    rcases run_locks he r hr with ⟨w, hw, -⟩ | ⟨id'', hq, rfl⟩
    · exact absurd hw (by simp [Stmt.write])
    · cases hq
      cases hx
      exact WithTop.coe_lt_coe.mpr hlt
  · cases he
    obtain ⟨rfl, he⟩ := readsLocked_ok ha
    unfold Effect.held
    rw [he]
    refine ⟨Set.subset_union_left, fun x hx => ?_, fun w hw => ?_⟩
    · rcases hx with hx | ⟨hx, -⟩
      · exact .inl hx
      · by_cases hrow : (db.wallets.get id).isSome
        · rw [if_pos hrow] at hx
          exact .inr (List.mem_singleton.mp hx)
        · rw [if_neg hrow] at hx
          exact absurd hx (by simp)
    · refine ⟨Table.key_of_get hw, .inr ⟨?_, rfl⟩⟩
      rw [hw]
      exact List.mem_singleton.mpr rfl

/-- What locking a list of wallets leaves: only wallets are held, and every row that came
back is. -/
def Locked (r : Except Exn (List (Uuid × Option Wallet))) (H : Set Res) : Prop :=
  ∀ locked, r = .ok locked → (∀ x ∈ H, ∃ id, x = .wallet id)
    ∧ ∀ p ∈ locked, ∀ w, p.2 = some w → w.id = p.1 ∧ Res.wallet w.id ∈ H

/-- **Wallets locked in ascending order climb.** -/
theorem climbs_lockEach {ids : List Uuid} (hids : ids.Pairwise (· < ·))
    (hH : ∀ x ∈ H, ∃ id, x = .wallet id ∧ ∀ id' ∈ ids, id < id') :
    Climbs engine lockRank i (WalletRepository.lockEach ids) (fun r H' => Kept H r H'
      ∧ Locked r H') H := by
  induction ids generalizing H with
  | nil =>
      refine ⟨fun _ _ => Set.Subset.refl H, fun locked h => ?_⟩
      cases h
      refine ⟨fun x hx => ?_, by simp⟩
      obtain ⟨id, rfl, -⟩ := hH x hx
      exact ⟨id, rfl⟩
  | cons id ids ih =>
      obtain ⟨hlt, hids⟩ := List.pairwise_cons.mp hids
      have hbelow : ∀ x ∈ H, ∃ id', x = .wallet id' ∧ id' < id := by
        intro x hx
        obtain ⟨id', rfl, h⟩ := hH x hx
        exact ⟨id', rfl, h id (by simp)⟩
      refine (climbs_getWithLock hbelow).bind (fun wallet H₁ h₁ => ?_)
        (fun e H' _ => ⟨fun a ha => absurd ha (by simp), fun a ha => absurd ha (by simp)⟩)
      obtain ⟨hsub, hnew, hrow⟩ := h₁ wallet rfl
      have hH₁ : ∀ x ∈ H₁, ∃ id', x = .wallet id' ∧ ∀ id'' ∈ ids, id' < id'' := by
        intro x hx
        rcases hnew x hx with hx | rfl
        · obtain ⟨id', rfl, h⟩ := hH x hx
          exact ⟨id', rfl, fun id'' h'' => h id'' (by simp [h''])⟩
        · exact ⟨id, rfl, hlt⟩
      refine (ih hids hH₁).bind (fun rest H₂ h₂ => ?_)
        (fun e H' _ => ⟨fun a ha => absurd ha (by simp), fun a ha => absurd ha (by simp)⟩)
      have hkeep : H₁ ⊆ H₂ := h₂.1 rest rfl
      obtain ⟨hwallets, hrest⟩ := h₂.2 rest rfl
      refine ⟨fun _ _ => hsub.trans hkeep, fun locked h => ?_⟩
      cases h
      refine ⟨hwallets, fun p hp w hw => ?_⟩
      rcases List.mem_cons.mp hp with rfl | hp
      · obtain ⟨hid, hin⟩ := hrow w hw
        exact ⟨hid, hkeep (by rw [hid]; exact hin)⟩
      · exact hrest p hp w hw

theorem sortedSet_pairwise (ids : List Uuid) :
    (WalletRepository.sortedSet ids).Pairwise (· < ·) := by
  have hsorted : (WalletRepository.sortedSet ids).Pairwise (· ≤ ·) :=
    List.pairwise_insertionSort _ _
  have hnodup : (WalletRepository.sortedSet ids).Nodup :=
    (List.perm_insertionSort _ _).nodup_iff.mpr (List.nodup_dedup ids)
  exact (hsorted.and hnodup).imp (fun h => lt_of_le_of_ne h.1 h.2)

theorem mem_sortedSet {ids : List Uuid} {id : Uuid} :
    id ∈ WalletRepository.sortedSet ids ↔ id ∈ ids := by
  rw [WalletRepository.sortedSet, List.mem_insertionSort, List.mem_dedup]

/-! ## The operations and the requests -/

/-- On after a program that asks for nothing ranked, with nothing held. -/
theorem Calm.first {p : Tx β} {f : β → Tx γ} {Q : Except Exn γ → Set Res → Prop} (hp : Calm p)
    (hf : ∀ a, Climbs engine lockRank i (f a) Q ∅) (he : ∀ e, Q (.error e) ∅) :
    Climbs engine lockRank i (p >>= f) Q ∅ := by
  refine hp.climbs.bind (fun a H h => ?_) (fun e H h => ?_)
  · rw [or_self] at h
    subst h
    exact hf a
  · rw [or_self] at h
    subst h
    exact he e

/-- A request gives up whatever it holds in the end. -/
theorem climbs_withSession {p : Tx β} {f : β → γ} (hp : Climbs engine lockRank i p Anyhow ∅) :
    Climbs engine lockRank i (withSession (f <$> p)) (fun _ H => H = ∅) ∅ := by
  have hmap : Climbs engine lockRank i (f <$> p) Anyhow ∅ :=
    hp.bind (fun _ _ _ => trivial) (fun _ _ _ => trivial)
  refine hmap.handle (fun r H _ => ?_)
  intro inp db o e he
  cases he
  refine ⟨fun x hx => absurd hx (by simp), ?_⟩
  cases r with
  | ok a => rfl
  | error x => rfl

/-- An operation and the invalidation after it. -/
theorem climbs_invalidating {p : Tx β} (hp : Climbs engine lockRank i p Anyhow ∅)
    (ids : List Uuid) :
    Climbs engine lockRank i (do let r ← p; BalanceCache.invalidate ids; pure r) Anyhow ∅ := by
  refine hp.bind (fun r H _ => ?_) (fun _ _ _ => trivial)
  refine Calm.anyhow (.bind (calm_invalidate ids) (fun _ => ?_))
  trivial

variable [Runtime]

theorem climbs_deposit (w u : Uuid) (data : DepositRequest) :
    Climbs engine lockRank i (LedgerService.deposit w u data) Anyhow ∅ := by
  rw [deposit_eq]
  refine (climbs_getWithLock (fun x hx => absurd hx (Set.notMem_empty x))).bind (fun r H h => ?_)
    (fun _ _ _ => trivial)
  obtain ⟨-, honly, hrow⟩ := h r rfl
  cases r with
  | none => trivial
  | some wallet =>
      obtain ⟨hid, hin⟩ := hrow wallet rfl
      refine climbs_raiseIf (climbs_raiseIf (climbs_book (fun txn => ?_) (fun x hx => ?_)
        (fun v hv => ?_)))
      · exact .bind (.query rfl)
          (fun _ => .bind (.query rfl) (fun _ => .bind (.query rfl) (fun _ => trivial)))
      · rcases honly x hx with hx | rfl
        · exact absurd hx (Set.notMem_empty x)
        · exact ⟨w, rfl⟩
      · have hv : v = wallet := by simpa [Movement.wallets, Side.wallets] using hv
        rw [hv, hid]
        exact hin

theorem climbs_withdraw (w u : Uuid) (data : WithdrawalRequest) (key : Option String) :
    Climbs engine lockRank i (LedgerService.withdraw w u data key) Anyhow ∅ := by
  rw [withdraw_eq]
  refine (calm_replay key w).first (fun r => ?_) (fun _ => trivial)
  cases r with
  | some r => trivial
  | none =>
      refine (climbs_getWithLock (fun x hx => absurd hx (Set.notMem_empty x))).bind
        (fun r H h => ?_)
        (fun _ _ _ => trivial)
      obtain ⟨-, honly, hrow⟩ := h r rfl
      cases r with
      | none => trivial
      | some wallet =>
          obtain ⟨hid, hin⟩ := hrow wallet rfl
          refine climbs_raiseIf (climbs_raiseIf (climbs_raiseIf ?_))
          refine climbs_book (fun txn => calm_commitKeyed txn key w) (fun x hx => ?_)
            (fun v hv => ?_)
          · rcases honly x hx with hx | rfl
            · exact absurd hx (Set.notMem_empty x)
            · exact ⟨w, rfl⟩
          · have hv : v = wallet := by simpa [Movement.wallets, Side.wallets] using hv
            rw [hv, hid]
            exact hin

theorem climbs_transfer (w u : Uuid) (data : TransferRequest) (key : Option String) :
    Climbs engine lockRank i (LedgerService.transfer w u data key) Anyhow ∅ := by
  rw [transfer_eq]
  refine climbs_raiseIf ((calm_replay key w).first (fun r => ?_) (fun _ => trivial))
  cases r with
  | some r => trivial
  | none =>
      refine (climbs_lockEach (sortedSet_pairwise _)
        (fun x hx => absurd hx (Set.notMem_empty x))).bind
        (fun locked H h => ?_) (fun _ _ _ => trivial)
      obtain ⟨hwallets, hlocked⟩ := h.2 locked rfl
      cases hsender : (locked.lookup w).join with
      | none => trivial
      | some sender =>
          obtain ⟨-, hs⟩ := hlocked _ (mem_of_lookup hsender) sender rfl
          refine climbs_raiseIf ?_
          cases hrecipient : (locked.lookup data.recipientWalletId).join with
          | none => trivial
          | some recipient =>
              obtain ⟨-, hr⟩ := hlocked _ (mem_of_lookup hrecipient) recipient rfl
              refine climbs_raiseIf (climbs_raiseIf (climbs_raiseIf ?_))
              refine climbs_book (fun txn => calm_commitKeyed txn key w) hwallets (fun v hv => ?_)
              rcases List.mem_pair.mp hv with rfl | rfl
              · exact hs
              · exact hr

theorem climbs_createWallet (owner : Uuid) (data : WalletCreate) :
    Climbs engine lockRank i (WalletService.createWallet owner data) Anyhow ∅ := by
  refine Calm.first (.query rfl) (fun existing => climbs_raiseIf ?_) (fun _ => trivial)
  have hinsert : Climbs engine lockRank i
      (WalletRepository.create owner (upper data.currency)) Anyhow ∅ := by
    refine Climbs.bind (Q := Anyhow) (.perform (fun inp db o e _ => ⟨.empty _, trivial⟩))
      (fun w H _ => ?_) (fun _ _ _ => trivial)
    exact (Calm.query rfl).anyhow
  refine hinsert.bind (fun w H _ => Calm.anyhow (calm_commit (fun r => ?_))) (fun _ _ _ => trivial)
  cases r with
  | ok _ => exact .query rfl
  | error e =>
      cases e with
      | db e =>
          cases e with
          | integrity => exact .bind (.query rfl) (fun _ => trivial)
          | _ => trivial
      | _ => trivial

/-- **Every program climbs.** -/
theorem Request.program_climbs (t : Request) :
    Climbs engine lockRank i t.program (fun _ H => H = ∅) ∅ := by
  have hcalm : Calm t.program → Climbs engine lockRank i t.program (fun _ H => H = ∅) ∅ :=
    fun h => h.climbs.mono (fun _ _ h => or_self_iff.mp h)
  cases t with
  | register data => exact hcalm (calm_register data).withSession
  | createWallet owner data => exact climbs_withSession (climbs_createWallet owner data)
  | deposit w u data => exact climbs_withSession (climbs_invalidating (climbs_deposit w u data) _)
  | transfer w u data key =>
      exact climbs_withSession (climbs_invalidating (climbs_transfer w u data key) _)
  | withdraw w u data key =>
      exact climbs_withSession (climbs_invalidating (climbs_withdraw w u data key) _)
  | publish p topic n => exact hcalm (Uses.map (calm_iteration p topic n))
  | handleEvent p => exact hcalm (calm_handleEvent p).withSession
  | analyticsConsumer =>
      exact hcalm (Uses.map (Calm.bind (.query rfl) (fun _ => calm_guardedRound)))
  | getBalance w u =>
      refine hcalm (Calm.withSession (Uses.mono (uses_getBalance w u) (fun q hq => ?_)))
      rcases hq with rfl | rfl | ⟨payload, rfl⟩ <;> rfl
  | listTransactions w limit offset u =>
      refine hcalm (Calm.withSession (Uses.mono (uses_listTransactions w limit offset u)
        (fun q hq => ?_)))
      rcases hq with rfl | rfl <;> rfl
  | reconcile =>
      refine hcalm (Calm.withSession (Uses.mono uses_check (fun q hq => ?_)))
      rcases hq with rfl | rfl <;> rfl

omit [Runtime] in
theorem Request.next_climbs {t : Request} {p : Tx Reply} (h : t.next = some p) :
    Climbs engine lockRank i p (fun _ H => H = ∅) ∅ := by
  cases t with
  | analyticsConsumer =>
      cases h
      have hcalm : Calm ((fun _ => Reply.polled) <$> AnalyticsConsumer.guarded
          AnalyticsConsumer.round) :=
        Uses.map calm_guardedRound
      exact hcalm.climbs.mono (fun _ _ h => or_self_iff.mp h)
  | _ => cases h

end climbing

/-! ## The order of acquisition -/

/-- The statements of `lockEach` are the locks of its list, in order and as far as it got. -/
theorem lockEach_trail {ids : List Uuid} {i : Sid} {t : Request} {ws ws' : List Write}
    {os : List LedgerObs} {p : Tx (List (Uuid × Option Wallet))}
    (h : Trail engine i t (WalletRepository.lockEach ids) ws os p ws') :
    os.map Obs.stmt <+: ids.map .selectWalletForUpdate
    ∧ ∀ locked, p = .ret locked → os.map Obs.stmt = ids.map .selectWalletForUpdate := by
  induction ids generalizing ws os p ws' with
  | nil =>
      obtain ⟨rfl, -, -⟩ := h.ret_inv
      exact ⟨List.prefix_refl _, fun _ _ => rfl⟩
  | cons id ids ih =>
      rw [List.map_cons]
      rcases h.handle_inv with ⟨q, k, hfirst, rfl⟩ | ⟨r, os₁, os₂, ws₁, rfl, hfirst, hrest⟩
      · obtain ⟨rfl, -, -⟩ := hfirst.perform_ahead
        exact ⟨List.nil_prefix, fun _ he => absurd he (by simp)⟩
      · obtain ⟨inp, db, aux, n, e, rfl, -⟩ := hfirst.perform_ended
        rw [List.map_append, List.map_singleton, List.singleton_append, List.cons_prefix_cons]
        cases r with
        | error x =>
            obtain ⟨rfl, rfl, -⟩ := hrest.raise_inv
            exact ⟨⟨rfl, List.nil_prefix⟩, fun _ he => absurd he (by simp)⟩
        | ok wallet =>
            rcases Trail.handle_inv hrest with ⟨q, k, hids, rfl⟩
              | ⟨r', os₃, os₄, ws₂, rfl, hids, hlast⟩
            · exact ⟨⟨rfl, (ih hids).1⟩, fun _ he => absurd he (by simp)⟩
            · cases r' with
              | error x =>
                  obtain ⟨rfl, rfl, -⟩ := hlast.raise_inv
                  rw [List.append_nil]
                  exact ⟨⟨rfl, (ih hids).1⟩, fun _ he => absurd he (by simp)⟩
              | ok rest =>
                  obtain ⟨rfl, -, -⟩ := hlast.ret_inv
                  rw [List.append_nil, (ih hids).2 rest rfl]
                  exact ⟨⟨rfl, List.prefix_refl _⟩, fun _ _ => rfl⟩

/-- With every row so far granted, `lockEach` is at the next row of its list, or has them all and
returns what it has met. -/
theorem lockEach_goes {ids : List Uuid} {i : Sid} {t : Request} {ws ws' : List Write}
    {os : List LedgerObs} {p : Tx (List (Uuid × Option Wallet))}
    (h : Trail engine i t (WalletRepository.lockEach ids) ws os p ws')
    (hok : ∀ o ∈ os, o.ok = true) :
    (∃ id k, ids[os.length]? = some id ∧ p = .call (.selectWalletForUpdate id) k)
    ∨ (os.length = ids.length
      ∧ p = .ret (List.zipWith (fun id o => (id, (o.db.applyAll ws).wallets.get id)) ids os)) := by
  induction ids generalizing ws os p ws' with
  | nil =>
      obtain ⟨rfl, rfl, -⟩ := h.ret_inv
      exact .inr ⟨rfl, rfl⟩
  | cons id ids ih =>
      rcases h.handle_inv with ⟨q, k, hfirst, rfl⟩ | ⟨r, os₁, os₂, ws₁, rfl, hfirst, hrest⟩
      · obtain ⟨rfl, he, -⟩ := hfirst.perform_ahead
        cases he
        exact .inl ⟨id, _, rfl, rfl⟩
      · obtain ⟨inp, db, aux, n, e, rfl, hrun, rfl, rfl⟩ := hfirst.perform_ended
        cases hans : e.ans with
        | error x =>
            have hself := hok _ (List.mem_append_left _ (.head _))
            rw [hans] at hself
            exact absurd hself Bool.false_ne_true
        | ok wallet =>
            -- the row is the one it met, and nothing is buffered by locking it
            obtain ⟨rfl, hbuffer⟩ :
              wallet = (db.applyAll ws).wallets.get id ∧ e.buffer ws = ws := by
              cases hrun
              obtain ⟨hrow, he⟩ := readsLocked_ok hans
              rw [he]
              exact ⟨hrow, List.append_nil ws⟩
            rw [hans, hbuffer] at hrest
            have hok₂ : ∀ o ∈ os₂, o.ok = true := fun o ho => hok o (List.mem_append_right _ ho)
            rcases Trail.handle_inv hrest with ⟨q, k, hids, rfl⟩
              | ⟨r', os₃, os₄, ws₂, rfl, hids, hlast⟩
            · rcases ih hids hok₂ with ⟨id', k', hid', hp⟩ | ⟨-, hp⟩
              · cases hp
                exact .inl ⟨id', _, hid', rfl⟩
              · exact absurd hp (by simp)
            · rcases ih hids (fun o ho => hok₂ o (List.mem_append_left _ ho)) with
                ⟨id', k', -, hp⟩ | ⟨hlen, hp⟩
              · cases r' <;> exact absurd hp (by simp [Prog.ofExcept])
              · cases r' with
                | error x => exact absurd hp (by simp [Prog.ofExcept])
                | ok rest =>
                    cases hp
                    obtain ⟨rfl, rfl, -⟩ := hlast.ret_inv
                    rw [List.append_nil, List.singleton_append]
                    exact .inr ⟨congrArg Nat.succ hlen, rfl⟩

/-- A row that was answered `FOR UPDATE` is held. -/
theorem exec_held {i : Sid} {t : Request} {inp : Inp} {s s' : LedgerStore} {id : Uuid} {x : Wallet}
    (hx : exec engine i t (.selectWalletForUpdate id) inp s = some (.ok (some x), s')) :
    x.id = id ∧ (Res.wallet id, i) ∈ s'.locks := by
  obtain ⟨e, he, hr, -, ho⟩ := exec_outcome hx
  cases he
  obtain ⟨hrow, heq⟩ := readsLocked_ok hr.symm
  refine ⟨Table.key_of_get hrow.symm, ?_⟩
  rw [heq] at ho
  cases ho with
  | stay _ _ _ _ locks =>
      refine (locks _).mpr (.inr ?_)
      rw [← hrow]
      exact List.mem_singleton.mpr rfl
  | commit ctl => exact absurd ctl (by simp)
  | abort ctl => exact absurd ctl (by simp)

/-- How `getForUpdateOrdered` goes about its list: once per id, in ascending order, to its end. -/
structure LocksInOrder (ids : List Uuid) : Prop where
  ascending : (WalletRepository.sortedSet ids).Pairwise (· < ·)
  all : ∀ id, id ∈ WalletRepository.sortedSet ids ↔ id ∈ ids
  /-- Whatever it has executed so far is a beginning of that list. -/
  locks : ∀ (i : Sid) (t : Request) (ws ws' : List Write) (os : List LedgerObs)
    (p : Tx (List (Uuid × Option Wallet))),
    Trail engine i t (WalletRepository.getForUpdateOrdered ids) ws os p ws' →
      os.map Obs.stmt <+: (WalletRepository.sortedSet ids).map .selectWalletForUpdate
      ∧ ∀ locked, p = .ret locked →
        os.map Obs.stmt = (WalletRepository.sortedSet ids).map .selectWalletForUpdate
  /-- As long as each is answered it asks for the next one, and when it has had them all it returns
  every id with the row it has met. -/
  goes : ∀ (i : Sid) (t : Request) (ws ws' : List Write) (os : List LedgerObs)
    (p : Tx (List (Uuid × Option Wallet))),
    Trail engine i t (WalletRepository.getForUpdateOrdered ids) ws os p ws'
      → (∀ o ∈ os, o.ok = true) →
      (∃ id k, (WalletRepository.sortedSet ids)[os.length]? = some id
        ∧ p = .call (.selectWalletForUpdate id) k)
      ∨ (os.length = (WalletRepository.sortedSet ids).length
        ∧ p = .ret (List.zipWith (fun id o => (id, (o.db.applyAll ws).wallets.get id))
          (WalletRepository.sortedSet ids) os))
  /-- A row that was answered is held. -/
  held : ∀ id ∈ ids, ∀ (i : Sid) (t : Request) (inp : Inp) (s s' : LedgerStore) (x : Wallet),
    exec engine i t (.selectWalletForUpdate id) inp s = some (.ok (some x), s') →
      x.id = id ∧ (Res.wallet id, i) ∈ s'.locks

/-! ## No deadlock -/

variable [Runtime]

/-- **No chain of requests waiting for wallets and keys leads back to its start**, and
the wallets of a list are locked once each and in ascending order. -/
theorem reachable_deadlockFree (db₀ : Db) (w : LedgerWorld) (h : ReachableFrom db₀ w) :
    (∀ i, ¬Relation.TransGen (Waits system lockRank w) i i) ∧ ∀ ids, LocksInOrder ids := by
  refine ⟨fun i => acyclic h.exclusive ?_ i, fun ids => ?_⟩
  · exact (h.climbs (fun i t => Request.program_climbs t)
      (fun i t p hp => Request.next_climbs hp)).2
  · exact ⟨sortedSet_pairwise ids, fun _ => mem_sortedSet, fun i t ws ws' os p htrail =>
      lockEach_trail htrail, fun i t ws ws' os p htrail hok => lockEach_goes htrail hok,
      fun id _ i t inp s s' x hx => exec_held hx⟩

/-- The statement a session is at. -/
def nextStmt (w : LedgerWorld) (i : Sid) : Option Stmt :=
  match w.sess i with
  | some (_, .call q _) => some q
  | _ => none

omit [Runtime] in
theorem nextStmt_some {w : LedgerWorld} {i : Sid} {q : Stmt} (h : nextStmt w i = some q) :
    ∃ t k, w.sess i = some (t, .call q k) := by
  unfold nextStmt at h
  split at h
  · rename_i t q' k hs
    cases h
    exact ⟨t, k, hs⟩
  · exact absurd h (by simp)

/-- Two transfers in opposite directions. -/
def opposed : List LedgerAction :=
  opening ++ [.spawn (.transfer 31 12 (transferOf 41 10) none)] ++ advance 5 1 60
    ++ [.spawn (.transfer 41 22 (transferOf 31 10) none)]

omit [Runtime] in
theorem opposed_deadlockFree : ∃ w, (@ReachableFrom plainRuntime .empty w
    ∧ Waits (@system plainRuntime) lockRank w 6 5)
    ∧ (∀ i, ¬Relation.TransGen (Waits (@system plainRuntime) lockRank w) i i)
    ∧ ∀ ids, LocksInOrder ids := by
  obtain ⟨w, hr, hw⟩ := exists_runPlain .empty opposed (fun w => (nextStmt w 6,
    ((w.store.view engine 6).wallets.get 31).isSome, decide ((.wallet 31, 5) ∈ w.store.locks)))
    (v := (some (.selectWalletForUpdate 31), true, true)) (by decide +kernel)
  obtain ⟨t, k, hsess⟩ := nextStmt_some (congrArg Prod.fst hw)
  have hrow := congrArg (fun x => x.2.1) hw
  have hlock := of_decide_eq_true (congrArg (fun x => x.2.2) hw)
  refine ⟨w,
    ⟨hr, ((31 : Uuid) : WithTop
      Uuid), by decide, t, _, k, {}, _, .wallet 31, hsess, rfl, ?_, rfl, hlock⟩,
    @reachable_deadlockFree plainRuntime .empty w hr⟩
  show Res.wallet 31 ∈ (if ((w.store.view engine 6).wallets.get 31).isSome
    then [Res.wallet 31] else [])
  rw [if_pos hrow]
  simp

end WalletLedger
