import WalletLedger.Isolation.Progress
import WalletLedger.Proof.Draining
import WalletLedger.Proof.Locking

/-!
# Requests get answered

All sessions together now, not the money operations alone: registrations and new wallets
contend for unique values, handlers for the inbox and the rows of the rollup. Each program
still climbs when these are ranked too, and that somebody can always go on is left to three
facts about the rest of the locks.

Ids are drawn afresh, so nobody holds the lock of a row before it is inserted. The status
of a transaction is updated by the session that inserted it. Only publishers update
events, and an event's lock is all a publisher ever holds.

The last one is where it ends: two publishers that have fetched the same events, and
stamp them in different orders because their timestamps tie, wait for each other.
-/

namespace WalletLedger

open Isolation Prog

/-! ## The ranks -/

/-- The rank of everything sessions contend for, events apart. -/
def waitRank : Res → Option (WithTop Uuid)
  | .wallet id => some (WithTop.some id)
  | .processed _ => some (WithTop.some 0)
  | .idempotencyKey _ => some ⊤
  | .email _ => some ⊤
  | .walletOwner _ _ => some ⊤
  | .stat _ => some ⊤
  | _ => none

/-- The statements a money operation issues without having to hold anything. -/
def Stmt.free : Stmt → Bool
  | .insertUser _ _ _ | .insertWallet _ _ | .insertProcessed _ _ | .insertStat _ _ _ _
  | .updateStat _ _ _ _ | .updateStatus _ _ => false
  | _ => true

/-- A statement of a money operation: the status it updates is that of its own transaction. -/
def OfMoney (q : Stmt) (H : Set Res) : Prop :=
  q.free = true ∨ ∃ id st, q = .updateStatus id st ∧ Res.transaction id ∈ H

/-- A statement of any other program: it inserts with nothing held, and counts an event with
nothing held but the event. -/
def OfOthers (q : Stmt) (H : Set Res) : Prop :=
  match q with
  | .insertUser _ _ _ | .insertWallet _ _ | .insertProcessed _ _ => H = ∅
  | .insertStat _ _ _ _ | .updateStat _ _ _ _ => ∀ r ∈ H, ∃ k, r = .processed k
  | .selectWalletForUpdate _ | .updateBalance _ _ | .insertTransaction _ _ _ _
  | .updateStatus _ _ => False
  | _ => True

/-- Whoever updates a status has inserted the transaction. -/
def OwnRow (q : Stmt) (H : Set Res) : Prop :=
  ∀ id st, q = .updateStatus id st → Res.transaction id ∈ H

theorem OfMoney.ownRow {q : Stmt} {H : Set Res} (h : OfMoney q H) : OwnRow q H := by
  rintro id st rfl
  rcases h with h | ⟨id', st', he, hin⟩
  · exact absurd h (by simp [Stmt.free])
  · cases he
    exact hin

theorem OfOthers.ownRow {q : Stmt} {H : Set Res} (h : OfOthers q H) : OwnRow q H := by
  rintro id st rfl
  exact h.elim

section ranks

variable {q : Stmt} {H H' : Set Res} {inp : Inp} {i : Sid} {db : Db} {o : Outside}
  {e : Effect Write Res Outside Exn q.Ans}

/-- What money operations ask for has the rank it had. -/
theorem OfMoney.agree (h : OfMoney q H) (he : run q inp i db o = some e) :
    ∀ r ∈ e.locks, lockRank r = waitRank r := by
  intro r hr
  have hkinds : (∃ id, r = .wallet id) ∨ (∃ k, r = .idempotencyKey k) ∨ (∃ id, r = .transaction id)
      ∨ (∃ id, r = .entry id) ∨ ∃ id, r = .event id := by
    rcases run_locks he r hr with ⟨w, hw, hr⟩ | ⟨id, -, rfl⟩
    · cases q with
      | updateBalance id b =>
          cases hw
          exact .inl ⟨_, List.mem_singleton.mp hr⟩
      | insertTransaction type st currency key =>
          cases hw
          rcases List.mem_cons.mp hr with rfl | hr
          · exact .inr (.inr (.inl ⟨_, rfl⟩))
          · obtain ⟨k, -, rfl⟩ := List.mem_map.mp hr
            exact .inr (.inl ⟨k, rfl⟩)
      | updateStatus id st =>
          cases hw
          exact .inr (.inr (.inl ⟨_, List.mem_singleton.mp hr⟩))
      | insertEntry =>
          cases hw
          exact .inr (.inr (.inr (.inl ⟨_, List.mem_singleton.mp hr⟩)))
      | insertEvent | updatePublished =>
          cases hw
          exact .inr (.inr (.inr (.inr ⟨_, List.mem_singleton.mp hr⟩)))
      | insertUser | insertWallet | insertProcessed | insertStat | updateStat =>
          rcases h with h | ⟨id, st, hq, -⟩
          · exact absurd h (by simp [Stmt.free])
          · exact absurd hq (by simp)
      | _ => exact absurd hw (by simp [Stmt.write])
    · exact .inl ⟨id, rfl⟩
  rcases hkinds with ⟨id, rfl⟩ | ⟨k, rfl⟩ | ⟨id, rfl⟩ | ⟨id, rfl⟩ | ⟨id, rfl⟩ <;> rfl

/-- What the others ask for ranks above what they hold. -/
theorem OfOthers.above (h : OfOthers q H) (hsub : H' ⊆ H) (he : run q inp i db o = some e) :
    Above waitRank H' e.locks := by
  intro r hr _ x hx g hg y hy
  have hg := hsub hg
  rcases run_locks he r hr with ⟨w, hw, hr⟩ | ⟨id, rfl, -⟩
  · cases q with
    | insertUser | insertWallet | insertProcessed =>
        have hH : H = ∅ := h
        rw [hH] at hg
        exact absurd hg (Set.notMem_empty g)
    | insertStat | updateStat =>
        cases hw
        obtain ⟨k, rfl⟩ := h g hg
        rw [List.mem_singleton.mp hr] at hx
        cases hx
        cases hy
        exact WithTop.coe_lt_top 0
    | insertEntry | insertEvent | updatePublished =>
        cases hw
        rw [List.mem_singleton.mp hr] at hx
        exact absurd hx (by simp [waitRank])
    | updateBalance | insertTransaction | updateStatus => exact h.elim
    | _ => exact absurd hw (by simp [Stmt.write])
  · exact h.elim

/-- A statement that asks for nothing leaves what is held, or gives it up. -/
theorem held_nothing (hl : e.locks = []) : e.held everything H = H ∨ e.held everything H = ∅ := by
  unfold Effect.held
  cases e.ctl with
  | stay =>
      left
      rw [hl]
      simp
  | commit => exact .inr rfl
  | abort => exact .inr rfl

/-- A statement that goes on with the transaction adds what it asks for. -/
theorem mem_held {r : Res} (hs : e.ctl = .stay) (hr : r ∈ H ∨ r ∈ e.locks) :
    r ∈ e.held everything H := by
  unfold Effect.held
  rw [hs]
  exact hr.imp_right (fun hr => ⟨hr, rfl⟩)

end ranks

/-! ## Money operations -/

section money

variable {i : Sid} {H : Set Res} {β γ : Type}

/-- A program of which no statement has to hold anything. -/
def Free (p : Tx β) : Prop := p.Uses (fun q => q.free = true)

theorem Free.equipped {p : Tx β} {Q : Except Exn β → Set Res → Prop} (hp : Free p)
    (hQ : ∀ r H, Q r H) :
    Equipped engine OfMoney i p Q H := .uses (Uses.mono hp (fun _ hq _ => .inl hq)) hQ

theorem free_lockEach (ids : List Uuid) : Free (WalletRepository.lockEach ids) := by
  induction ids with
  | nil => trivial
  | cons id ids ih => exact .bind (.perform rfl) (fun _ => .bind ih (fun _ => trivial))

theorem free_replay (key : Option String) (id : Uuid) : Free (LedgerService.replay key id) := by
  unfold LedgerService.replay
  by_cases h : LedgerService.truthy key = true
  · rw [if_pos h]
    refine .bind (.perform rfl) (fun r => ?_)
    cases r with
    | some t => exact .bind (.perform rfl) (fun _ => trivial)
    | none => trivial
  · rw [if_neg h]
    trivial

theorem free_commitKeyed (txn : Transaction) (key : Option String) (id : Uuid) :
    Free (LedgerService.commitKeyed txn key id) := by
  refine .bind (.attempt (.perform rfl)) (fun r => ?_)
  cases r with
  | ok _ => exact .bind (.perform rfl) (fun _ => .bind (.perform rfl) (fun _ => trivial))
  | error e =>
      cases e with
      | db e =>
          cases e with
          | integrity =>
              refine Uses.bind (.perform rfl) (fun _ => .bind (free_replay key id) (fun r => ?_))
              cases r with
              | some r => trivial
              | none => trivial
          | _ => trivial
      | _ => trivial

theorem free_invalidate (ids : List Uuid) : Free (BalanceCache.invalidate ids) := by
  unfold BalanceCache.invalidate
  by_cases h : ids = []
  · rw [if_pos h]
    trivial
  · rw [if_neg h]
    exact .bind (.attempt (.perform rfl)) (fun _ => trivial)

/-- What is held stays held by a statement that goes on with the transaction. -/
theorem equipped_statement {q : Stmt} (hq : OfMoney q H)
    (hstay : ∀ inp db o e a, run q inp i db o = some e → e.ans = .ok a → e.ctl = .stay) :
    Equipped engine OfMoney i (query q) (Kept H) H := by
  refine .perform hq (fun inp db o e he a ha => ?_)
  unfold Effect.held
  rw [hstay inp db o e a he ha]
  exact Set.subset_union_left

theorem equipped_next {p : Tx β} {f : β → Tx γ} (hp : Equipped engine OfMoney i p (Kept H) H)
    (hf : ∀ a H', H ⊆ H' → Equipped engine OfMoney i (f a) Anyhow H') :
    Equipped engine OfMoney i (p >>= f) Anyhow H :=
  hp.bind (fun a H' h => hf a H' (h a rfl)) (fun _ _ _ => trivial)

/-- The lock of a transaction is with the session that inserts it. -/
theorem equipped_create (type : TransactionType) (currency : String) (key : Option String) :
    Equipped engine OfMoney i (TransactionRepository.create type currency key)
      (fun r H' => ∀ txn, r = .ok txn → Res.transaction txn.id ∈ H') H := by
  have hinsert : Equipped engine OfMoney i (query (.insertTransaction type .pending currency key))
      (fun r H' => ∀ txn, r = .ok txn → Res.transaction txn.id ∈ H') H := by
    refine .perform (.inl rfl) (fun inp db o e he txn ha => ?_)
    cases he
    obtain ⟨-, -, rfl, he⟩ := writes_ok ha
    refine mem_held (congrArg Effect.ctl he) (.inr ?_)
    have hlocks := congrArg Effect.locks he
    exact hlocks ▸ List.mem_cons_self
  refine hinsert.bind (fun txn H' h => ?_) (fun e H' _ t ht => absurd ht (by simp))
  refine .perform (.inl rfl) (fun inp db o e he t ha => ?_)
  cases he
  obtain ⟨hrow, he⟩ := refreshes_ok ha
  rw [Table.key_of_get hrow]
  exact mem_held (congrArg Effect.ctl he) (.inl (h txn rfl))

theorem equipped_flushWallets (ws : List Wallet) :
    Equipped engine OfMoney i (TransactionRepository.flushWallets ws) (Kept H) H := by
  induction ws generalizing H with
  | nil => exact fun _ _ => Set.Subset.refl H
  | cons w ws ih =>
      have hupdate : Equipped engine OfMoney i (query (.updateBalance w.id w.availableBalance))
          (Kept H) H := by
        refine equipped_statement (.inl rfl) (fun inp db o e a he ha => ?_)
        cases he
        exact congrArg Effect.ctl (writes_ok ha).2.2.2
      refine hupdate.bind (fun u H' h => ?_) (fun e H' _ a ha => absurd ha (by simp))
      exact ih.mono (fun _ _ h => h) (fun r H'' h' a ha => (h u rfl).trans (h' a ha))

/-- **The common tail of the money operations** updates the status of its own transaction. -/
theorem equipped_book {mv : Movement} {k : Transaction → Tx γ} (hk : ∀ txn, Free (k txn)) :
    Equipped engine OfMoney i (book mv k) Anyhow H := by
  have hleg : ∀ (txn : Transaction) (leg : EntryType × Side) (H : Set Res),
      Equipped engine OfMoney i (bookLeg mv txn leg) (Kept H) H := by
    intro txn leg H
    refine equipped_statement (.inl rfl) (fun inp db o e a he ha => ?_)
    cases he
    exact congrArg Effect.ctl (writes_ok ha).2.2.2
  refine (equipped_create _ _ _).bind (fun txn H₁ h₁ => ?_) (fun _ _ _ => trivial)
  refine equipped_next (hleg txn mv.first H₁) (fun _ H₂ h₂ => ?_)
  refine equipped_next (hleg txn mv.second H₂) (fun _ H₃ h₃ => ?_)
  have hmark : Equipped engine OfMoney i (TransactionRepository.markCompleted mv.dirty
      txn) Anyhow H₃ := by
    have hown : Res.transaction txn.id ∈ H₃ := h₃ (h₂ (h₁ txn rfl))
    refine .bind (Q := Anyhow) (.perform (.inr ⟨_, _, rfl, hown⟩) (fun _ _ _ _ _ => trivial))
      (fun _ H₄ _ => ?_) (fun _ _ _ => trivial)
    exact equipped_next (equipped_flushWallets _) (fun _ _ _ => trivial)
  refine hmark.bind (fun txn H₄ _ => ?_) (fun _ _ _ => trivial)
  refine Free.equipped ?_ (fun _ _ => trivial)
  have hrecord : Free (LedgerService.recordEvent txn mv.amount mv.subject mv.counterparty) :=
    .bind (.perform rfl) (fun _ => .bind (.perform rfl) (fun _ => trivial))
  exact Uses.bind hrecord (fun _ => hk txn)

theorem equipped_raiseIf {c : Prop} [Decidable c] {e : Exn} {f : Unit → Tx γ}
    (hf : Equipped engine OfMoney i (f ()) Anyhow H) :
    Equipped engine OfMoney i (Prog.raiseIf c e >>= f) Anyhow H := by
  unfold Prog.raiseIf
  by_cases hc : c
  · rw [if_pos hc]
    trivial
  · rw [if_neg hc]
    exact hf

/-- On after a program of which no statement has to hold anything. -/
theorem Free.first {p : Tx β} {f : β → Tx γ} (hp : Free p)
    (hf : ∀ a H, Equipped engine OfMoney i (f a) Anyhow H) :
    Equipped engine OfMoney i (p >>= f) Anyhow H :=
  (hp.equipped (Q := Anyhow) (fun _ _ => trivial)).bind (fun a H _ => hf a H) (fun _ _ _ => trivial)

variable [Runtime]

theorem equipped_deposit (w u : Uuid) (data : DepositRequest) :
    Equipped engine OfMoney i (LedgerService.deposit w u data) Anyhow H := by
  rw [deposit_eq]
  refine Free.first (p := WalletRepository.getWithLock w) (.perform rfl) (fun r H => ?_)
  cases r with
  | none => trivial
  | some wallet =>
      refine equipped_raiseIf (equipped_raiseIf (equipped_book (fun txn => ?_)))
      exact .bind (.perform rfl) (fun _ => .bind (.perform rfl) (fun _ =>
        .bind (.perform rfl) (fun _ => trivial)))

theorem equipped_withdraw (w u : Uuid) (data : WithdrawalRequest) (key : Option String) :
    Equipped engine OfMoney i (LedgerService.withdraw w u data key) Anyhow H := by
  rw [withdraw_eq]
  refine (free_replay key w).first (fun r H => ?_)
  cases r with
  | some r => trivial
  | none =>
      refine Free.first (p := WalletRepository.getWithLock w) (.perform rfl) (fun r H => ?_)
      cases r with
      | none => trivial
      | some wallet =>
          refine equipped_raiseIf (equipped_raiseIf (equipped_raiseIf ?_))
          exact equipped_book (fun txn => free_commitKeyed txn key w)

theorem equipped_transfer (w u : Uuid) (data : TransferRequest) (key : Option String) :
    Equipped engine OfMoney i (LedgerService.transfer w u data key) Anyhow H := by
  rw [transfer_eq]
  refine equipped_raiseIf ((free_replay key w).first (fun r H => ?_))
  cases r with
  | some r => trivial
  | none =>
      refine (free_lockEach _).first (fun locked H => ?_)
      cases (locked.lookup w).join with
      | none => trivial
      | some sender =>
          refine equipped_raiseIf ?_
          cases (locked.lookup data.recipientWalletId).join with
          | none => trivial
          | some recipient =>
              refine equipped_raiseIf (equipped_raiseIf (equipped_raiseIf ?_))
              exact equipped_book (fun txn => free_commitKeyed txn key w)

end money

/-! ## The other programs -/

section others

variable {i : Sid} {H : Set Res} {β γ : Type}

/-- The statements that ask for nothing. -/
def Stmt.silent : Stmt → Bool
  | .selectWalletForUpdate _ | .insertUser _ _ _ | .insertWallet _ _ | .updateBalance _ _
  | .insertTransaction _ _ _ _ | .updateStatus _ _ | .insertEntry _ _ _ _ _ _ | .insertEvent _ _ _ _
  | .updatePublished _ _ | .insertProcessed _ _ | .insertStat _ _ _ _ | .updateStat _ _ _ _ => false
  | _ => true

theorem run_silent {q : Stmt} (hq : q.silent = true) {inp : Inp} {db : Db} {o : Outside}
    {e : Effect Write Res Outside Exn q.Ans} (he : run q inp i db o = some e) : e.locks = [] := by
  rw [List.eq_nil_iff_forall_not_mem]
  intro r hr
  have hnone : q.write inp o = none := by
    cases q <;> first | rfl | exact Bool.noConfusion hq
  rcases run_locks he r hr with ⟨w, hw, -⟩ | ⟨id, rfl, -⟩
  · exact absurd (hnone.symm.trans hw) (by simp)
  · exact absurd hq (by simp [Stmt.silent])

theorem ofOthers_silent {q : Stmt} (hq : q.silent = true) (H : Set Res) : OfOthers q H := by
  cases q <;> trivial

/-- A program that asks for nothing. -/
def Silent (p : Tx β) : Prop := p.Uses (fun q => q.silent = true)

theorem Silent.anyhow {p : Tx β} (hp : Silent p) : Equipped engine OfOthers i p Anyhow H :=
  .uses (Uses.mono hp (fun _ hq => ofOthers_silent hq)) (fun _ _ => trivial)

/-- It ends with nothing held if it begins so. -/
theorem Silent.empty {p : Tx β} (hp : Silent p) :
    Equipped engine OfOthers i p (fun _ H => H = ∅) ∅ := by
  induction p with
  | ret a => rfl
  | raise e => rfl
  | call q k ih =>
      refine ⟨ofOthers_silent hp.1 ∅, fun inp db o e he => ?_⟩
      rw [or_self_iff.mp (held_nothing (run_silent hp.1 he))]
      exact ih e.ans (hp.2 e.ans)

/-- On after it, with nothing held. -/
theorem Silent.first {p : Tx β} {f : β → Tx γ} {Q : Except Exn γ → Set Res → Prop} (hp : Silent p)
    (hf : ∀ a, Equipped engine OfOthers i (f a) Q ∅) (he : ∀ e, Q (.error e) ∅) :
    Equipped engine OfOthers i (p >>= f) Q ∅ := by
  refine hp.empty.bind (fun a H h => ?_) (fun e H h => ?_)
  · subst h
    exact hf a
  · subst h
    exact he e

/-- One statement with nothing held, and nothing asked for afterwards. -/
theorem equipped_single {q : Stmt} {f : q.Ans → Tx γ} (hq : OfOthers q ∅) (hf : ∀ a, Silent (f a)) :
    Equipped engine OfOthers i (query q >>= f) Anyhow ∅ :=
  .bind (Q := Anyhow) (.perform hq (fun _ _ _ _ _ => trivial)) (fun a _ _ => (hf a).anyhow)
    (fun _ _ _ => trivial)

/-- A commit with a conflict handler around it. -/
theorem silent_commit {f : Except Exn Unit → Tx β} (hok : Silent (f (.ok ())))
    (hconflict : Silent (f (.error (.db .integrity))))
    (helse : ∀ e, e ≠ .db .integrity → f (.error e) = .raise e) :
    Silent ((query .commit).attempt >>= f) := by
  refine .bind (.attempt (.perform rfl)) (fun r => ?_)
  cases r with
  | ok u => exact hok
  | error e =>
      by_cases he : e = .db .integrity
      · rw [he]
        exact hconflict
      · rw [helse e he]
        trivial

/-- `get_db` gives up whatever is held in the end. -/
theorem equipped_withSession {ask : Stmt → Set Res → Prop} {p : Tx β} {f : β → γ}
    (hask : ∀ H, ask .close H) (hp : Equipped engine ask i p Anyhow ∅) :
    Equipped engine ask i (withSession (f <$> p)) (fun _ H => H = ∅) ∅ := by
  have hmap : Equipped engine ask i (f <$> p) Anyhow ∅ :=
    hp.bind (fun _ _ _ => trivial) (fun _ _ _ => trivial)
  refine hmap.handle (fun r H _ => ⟨hask H, fun inp db o e he => ?_⟩)
  cases he
  cases r with
  | ok a => rfl
  | error x => rfl

theorem equipped_register [Runtime] (data : UserCreate) :
    Equipped engine OfOthers i (UserService.register data) Anyhow ∅ := by
  have hlook : Silent (UserRepository.getByEmail data.email) := .perform rfl
  refine hlook.first (fun existing => ?_) (fun _ => trivial)
  have hcheck : Silent (raiseIf (existing.isSome = true)
    (.emailAlreadyExists data.email)) := .raiseIf _ _
  refine hcheck.first (fun _ => ?_) (fun _ => trivial)
  have hsalt : Silent (query .salt) := .perform rfl
  refine hsalt.first (fun salt => ?_) (fun _ => trivial)
  have hcreate : Equipped engine OfOthers i
      (UserRepository.create data.name data.email
        (Runtime.hashPassword data.password salt)) Anyhow ∅ :=
    equipped_single rfl (fun _ => .perform rfl)
  refine hcreate.bind (fun user H _ => Silent.anyhow
    (silent_commit (.perform rfl) ?_ (fun e he => ?_)))
    (fun _ _ _ => trivial)
  · exact Uses.bind (.perform rfl) (fun _ => trivial)
  · cases e with
    | db e =>
        cases e with
        | integrity => exact absurd rfl he
        | _ => rfl
    | _ => rfl

theorem equipped_createWallet [Runtime] (owner : Uuid) (data : WalletCreate) :
    Equipped engine OfOthers i (WalletService.createWallet owner data) Anyhow ∅ := by
  have hlook : Silent (WalletRepository.getByUserAndCurrency owner
    (upper data.currency)) := .perform rfl
  refine hlook.first (fun existing => ?_) (fun _ => trivial)
  have hcheck : Silent (raiseIf (existing.isSome = true)
      (.walletAlreadyExists (upper data.currency))) :=
    .raiseIf _ _
  refine hcheck.first (fun _ => ?_) (fun _ => trivial)
  have hcreate : Equipped engine OfOthers i
      (WalletRepository.create owner (upper data.currency)) Anyhow ∅ :=
    equipped_single rfl (fun _ => .perform rfl)
  refine hcreate.bind (fun wallet H _ => Silent.anyhow
    (silent_commit (.perform rfl) ?_ (fun e he => ?_)))
    (fun _ _ _ => trivial)
  · exact Uses.bind (.perform rfl) (fun _ => trivial)
  · cases e with
    | db e =>
        cases e with
        | integrity => exact absurd rfl he
        | _ => rfl
    | _ => rfl

/-- Only events of the inbox are held. -/
def InboxOnly (H : Set Res) : Prop := ∀ r ∈ H, ∃ k, r = .processed k

theorem equipped_markProcessed (txnId : Uuid) : Equipped engine OfOthers i
    (ProcessedEventRepository.markProcessed AnalyticsService.consumerName txnId)
    (fun _ H => InboxOnly H) ∅ := by
  refine .perform rfl (fun inp db o e he r hr => ?_)
  have hr : r ∈ e.held everything ∅ := hr
  unfold Effect.held at hr
  cases hctl : e.ctl with
  | stay =>
      rw [hctl] at hr
      rcases hr with hr | hr
      · exact absurd hr (Set.notMem_empty r)
      · have he : run (.insertProcessed AnalyticsService.consumerName txnId) inp i db
          o = some e := he
        rcases run_locks he r hr.1 with ⟨w, hw, hr⟩ | ⟨id, hq, -⟩
        · cases hw
          exact ⟨_, List.mem_singleton.mp hr⟩
        · exact absurd hq (by simp)
  | commit => rw [hctl] at hr; exact absurd hr (Set.notMem_empty r)
  | abort => rw [hctl] at hr; exact absurd hr (Set.notMem_empty r)

theorem equipped_handleEvent (p : Payload) :
    Equipped engine OfOthers i (AnalyticsService.handleEvent p) Anyhow ∅ := by
  have hlook : Silent (ProcessedEventRepository.isProcessed AnalyticsService.consumerName
      p.transactionId) :=
    Uses.bind (.perform rfl) (fun _ => trivial)
  refine hlook.first (fun b => ?_) (fun _ => trivial)
  cases b with
  | true => trivial
  | false =>
      refine (equipped_markProcessed _).bind (fun _ H hH => ?_) (fun _ _ _ => trivial)
      have hinc : Equipped engine OfOthers i
          (TransactionStatRepository.increment p.currency p.type p.amount) Anyhow H := by
        refine .bind (Q := fun _ H => InboxOnly H) (.perform trivial (fun inp db o e he => ?_))
          (fun stat H hH => ?_) (fun _ _ _ => trivial)
        · have hl : e.locks = [] := run_silent (i := i) (q := .selectStat _ _) rfl he
          rcases held_nothing (H := H) hl with h | h
          · rw [h]
            exact hH
          · rw [h]
            exact fun r hr => absurd hr (Set.notMem_empty r)
        · cases stat with
          | none => exact .perform hH (fun _ _ _ _ _ => trivial)
          | some stat => exact .perform hH (fun _ _ _ _ _ => trivial)
      refine hinc.bind (fun _ H _ => Silent.anyhow (silent_commit trivial ?_ (fun e he => ?_)))
        (fun _ _ _ => trivial)
      · exact Uses.bind (.perform rfl) (fun _ => trivial)
      · cases e with
        | db e =>
            cases e with
            | integrity => exact absurd rfl he
            | _ => rfl
        | _ => rfl

theorem equipped_handleForeign (txnId : Option Uuid) :
    Equipped engine OfOthers i (AnalyticsService.handleForeign txnId) Anyhow ∅ := by
  cases txnId with
  | none => trivial
  | some txnId =>
      have hlook : Silent (ProcessedEventRepository.isProcessed
          AnalyticsService.consumerName txnId) :=
        Uses.bind (.perform rfl) (fun _ => trivial)
      refine hlook.first (fun b => ?_) (fun _ => trivial)
      cases b with
      | true => trivial
      | false =>
          exact (equipped_markProcessed txnId).bind (fun _ _ _ => trivial) (fun _ _ _ => trivial)

/-- Closing its session, a record leaves nothing held. -/
theorem equipped_handleRecord {part offset : Nat} {handler : Tx Bool}
    (hp : Equipped engine OfOthers i handler Anyhow ∅) :
    Equipped engine OfOthers i (AnalyticsConsumer.handleRecord part offset handler)
      (fun _ H => H = ∅) ∅ := by
  show Equipped engine OfOthers i (handler.attempt >>= _) _ _
  rw [attempt_bind]
  refine hp.handle (fun _ H _ => ?_)
  refine .bind (Q := fun _ H => H = ∅) (.perform trivial (fun inp db o e he => ?_))
    (fun _ H hH => ?_) (fun _ _ h => h)
  · cases he
    rfl
  · subst hH
    exact Silent.empty (.perform rfl)

/-- Every round of the consumer ends with nothing held. -/
theorem equipped_guardedRound : Equipped engine OfOthers i
    (AnalyticsConsumer.guarded AnalyticsConsumer.round) (fun _ H => H = ∅) ∅ := by
  have hround : Equipped engine OfOthers i AnalyticsConsumer.round (fun _ H => H = ∅) ∅ := by
    have hpoll : Silent (query .poll) := .perform rfl
    refine hpoll.first (fun msg => ?_) (fun _ => rfl)
    cases msg with
    | nothing => rfl
    | error c => rfl
    | record part offset value =>
        cases value with
        | malformed => rfl
        | foreign txnId => exact equipped_handleRecord (equipped_handleForeign txnId)
        | event payload => exact equipped_handleRecord (equipped_handleEvent payload)
  refine hround.handle (fun r H hH => ?_)
  subst hH
  cases r with
  | ok a => rfl
  | error e => exact Silent.empty (.bind (.perform rfl) (fun _ => trivial))

end others

/-! ## Every request -/

section requests

variable {i : Sid}

/-- A publisher updates events, and asks for nothing else. -/
def Stmt.stamps (q : Stmt) : Prop := q.silent = true ∨ ∃ id t, q = .updatePublished id t

theorem stamps_markAll (events : List OutboxEvent) :
    (OutboxPublisher.markAll events).Uses Stmt.stamps := by
  induction events with
  | nil => trivial
  | cons e events ih =>
      refine .bind (.bind (.perform (.inl rfl)) (fun now => ?_)) (fun _ => ih)
      exact .bind (.perform (.inr ⟨_, _, rfl⟩)) (fun _ => trivial)

theorem stamps_produceAll {producer : Nat} {topic : String} (events : List OutboxEvent)
    (errors : List Nat) :
    (OutboxPublisher.produceAll producer topic events errors).Uses Stmt.stamps := by
  induction events generalizing errors with
  | nil => trivial
  | cons e events ih => exact .bind (.perform (.inl rfl)) (fun _ => ih _)

theorem stamps_work (producer : Nat) (topic : String) (n : Nat) : Uses Stmt.stamps (do
    let published ← OutboxPublisher.publishBatch producer topic n
    query .commit
    pure published : Tx Nat) := by
  have hbatch : (OutboxPublisher.publishBatch producer topic n).Uses Stmt.stamps := by
    refine .bind (.perform (.inl rfl)) (fun events => ?_)
    show Uses _ (if events = [] then _ else _)
    by_cases h : events = []
    · rw [if_pos h]
      trivial
    · rw [if_neg h]
      refine .bind (stamps_produceAll _ _) (fun _ => .bind (.perform (.inl rfl)) (fun _ => ?_))
      exact .bind (.raiseIf _ _) (fun _ => .bind (stamps_markAll _) (fun _ => trivial))
  exact .bind hbatch (fun _ => .bind (.perform (.inl rfl)) (fun _ => trivial))

theorem stamps_iteration (producer : Nat) (topic : String) (n : Nat) :
    (OutboxPublisher.iteration producer topic n).Uses Stmt.stamps := by
  refine .bind (.attempt (stamps_work producer topic n)) (fun r => ?_)
  cases r with
  | ok n => exact .bind (.perform (.inl rfl)) (fun _ => trivial)
  | error e =>
      exact .bind (.perform (.inl rfl)) (fun _ => .bind (.perform (.inl rfl)) (fun _ => trivial))

theorem Stmt.stamps.ofOthers {q : Stmt} (h : q.stamps) (H : Set Res) : OfOthers q H := by
  rcases h with h | ⟨id, t, rfl⟩
  · exact ofOthers_silent h H
  · trivial

theorem equipped_iteration (producer : Nat) (topic : String) (n : Nat) :
    Equipped engine OfOthers i (OutboxPublisher.iteration producer topic n)
      (fun _ H => H = ∅) ∅ := by
  have hwork : Equipped engine OfOthers i (do
      let published ← OutboxPublisher.publishBatch producer topic n
      query .commit
      pure published : Tx Nat) Anyhow ∅ :=
    .uses (Uses.mono (stamps_work producer topic n) (fun _ hq => hq.ofOthers)) (fun _ _ => trivial)
  have hidle : ∀ {q : Stmt} {f : q.Ans → Tx Nat} {H : Set Res}, OfOthers q H →
      (∀ inp db o e, run q inp i db o = some e → e.ctl = .abort) →
      (∀ a, Equipped engine OfOthers i (f a) (fun _ H => H = ∅) ∅) →
      Equipped engine OfOthers i (query q >>= f) (fun _ H => H = ∅) H := by
    intro q f H hq habort hf
    refine .bind (Q := fun _ H => H = ∅) (.perform hq (fun inp db o e he => ?_)) (fun a H hH => ?_)
      (fun _ _ h => h)
    · unfold Effect.held
      rw [habort inp db o e he]
    · subst hH
      exact hf a
  unfold OutboxPublisher.iteration
  dsimp only
  rw [attempt_bind]
  refine hwork.handle (fun r H _ => ?_)
  cases r with
  | ok published =>
      refine hidle trivial (fun inp db o e he => ?_) (fun _ => rfl)
      cases he
      rfl
  | error x =>
      refine hidle trivial (fun inp db o e he => ?_)
        (fun _ => hidle trivial (fun inp db o e he => ?_)
        (fun _ => rfl))
      · cases he
        rfl
      · cases he
        rfl

/-- An operation and the invalidation after it. -/
theorem equipped_invalidating {β : Type} {p : Tx β} (hp : Equipped engine OfMoney i p Anyhow ∅)
    (ids : List Uuid) :
    Equipped engine OfMoney i (do let r ← p; BalanceCache.invalidate ids; pure r) Anyhow ∅ := by
  refine hp.bind (fun r H _ => Free.equipped ?_ (fun _ _ => trivial)) (fun _ _ _ => trivial)
  exact Uses.bind (free_invalidate ids) (fun _ => trivial)

variable [Runtime]

/-- **Every program** is one of the two kinds, and ends with nothing held. -/
theorem Request.program_equipped (t : Request) :
    Equipped engine OfMoney i t.program (fun _ H => H = ∅) ∅
      ∨ Equipped engine OfOthers i t.program (fun _ H => H = ∅) ∅ := by
  have hmap : ∀ {α β : Type} {p : Tx α} {f : α → β}, Equipped engine OfOthers i p
    (fun _ H => H = ∅) ∅ →
      Equipped engine OfOthers i (f <$> p) (fun _ H => H = ∅) ∅ :=
    fun h => h.bind (fun _ _ hH => hH) (fun _ _ hH => hH)
  cases t with
  | register data => exact .inr (equipped_withSession (fun _ => trivial) (equipped_register data))
  | createWallet owner data =>
      exact .inr (equipped_withSession (fun _ => trivial) (equipped_createWallet owner data))
  | deposit w u data =>
      exact .inl (equipped_withSession (fun _ => .inl rfl)
        (equipped_invalidating (equipped_deposit w u data) _))
  | transfer w u data key =>
      exact .inl (equipped_withSession (fun _ => .inl rfl)
        (equipped_invalidating (equipped_transfer w u data key) _))
  | withdraw w u data key =>
      exact .inl (equipped_withSession (fun _ => .inl rfl)
        (equipped_invalidating (equipped_withdraw w u data key) _))
  | publish p topic n => exact .inr (hmap (equipped_iteration p topic n))
  | handleEvent p => exact .inr (equipped_withSession (fun _ => trivial) (equipped_handleEvent p))
  | analyticsConsumer =>
      refine .inr (hmap (Silent.first ?_ (fun _ => equipped_guardedRound) (fun _ => rfl)))
      exact Uses.perform rfl
  | getBalance w u =>
      refine .inr (equipped_withSession (fun _ => trivial)
        (Silent.anyhow (Uses.mono (uses_getBalance w u) ?_)))
      rintro q (rfl | rfl | ⟨payload, rfl⟩) <;> rfl
  | listTransactions w limit offset u =>
      refine .inr (equipped_withSession (fun _ => trivial)
        (Silent.anyhow (Uses.mono (uses_listTransactions w limit offset u) ?_)))
      rintro q (rfl | rfl) <;> rfl
  | reconcile =>
      refine .inr (equipped_withSession (fun _ => trivial)
        (Silent.anyhow (Uses.mono uses_check ?_)))
      rintro q (rfl | rfl) <;> rfl

omit [Runtime] in
theorem Request.next_equipped {t : Request} {p : Tx Reply} (h : t.next = some p) :
    Equipped engine OfOthers i p (fun _ H => H = ∅) ∅ := by
  cases t with
  | analyticsConsumer =>
      cases h
      exact equipped_guardedRound.bind (fun _ _ hH => hH) (fun _ _ hH => hH)
  | _ => cases h

omit [Runtime] in
/-- What the others ask for is ranked above what they hold. -/
theorem climbs_ofOthers {p : Tx Reply} (h : Equipped engine OfOthers i p (fun _ H => H = ∅) ∅) :
    Climbs engine waitRank i p (fun _ H => H = ∅) ∅ := by
  refine (h.climbs (Set.Subset.refl ∅) (fun q H H' hq hsub inp db o e he =>
    hq.above hsub he)).mono ?_
  rintro r H ⟨H', hsub, rfl⟩
  exact Set.subset_empty_iff.mp hsub

/-- **Every program climbs**, whatever it contends for. -/
theorem Request.program_waits (t : Request) :
    Climbs engine waitRank i t.program (fun _ H => H = ∅) ∅ := by
  rcases t.program_equipped (i := i) with h | h
  · exact t.program_climbs.rerank h (fun r hr => absurd hr (Set.notMem_empty r))
      (fun q H hq inp db o e he => hq.agree he)
  · exact climbs_ofOthers h

end requests

/-! ## Answers -/

/-- Nothing goes wrong. -/
structure Faultless (inp : Inp) : Prop where
  fault : inp.fault = none
  kafkaFault : inp.kafkaFault = none
  cacheFault : inp.cacheFault = none

/-- Whatever is asked can be answered, with any id drawn. -/
theorem run_answered (q : Stmt) (i : Sid) (db : Db) (o : Outside) (id : Uuid) :
    ∃ inp e, Faultless inp ∧ inp.uuid = id ∧ run q inp i db o = some e := by
  cases q with
  | selectUnpublished limit =>
      obtain ⟨batch, rest, h⟩ := exists_isBatch OutboxEvent.createdAt limit (openEvents db)
      have hrun : ∀ inp : Inp, isBatch db limit inp.batch = true →
          run (.selectUnpublished limit) inp i db o
            = some (reads inp o (inp.batch.filterMap db.outboxEvents.get)) := fun _ hb => if_pos hb
      exact ⟨{ uuid := id, batch := _ }, _, ⟨rfl, rfl, rfl⟩, rfl, hrun _ (isBatch_of h)⟩
  | _ => exact ⟨{ uuid := id }, _, ⟨rfl, rfl, rfl⟩, rfl, rfl⟩

/-- The id of the row a lock is on. -/
def Res.rowId : Res → Option Uuid
  | .user id | .wallet id | .transaction id | .entry id | .event id => some id
  | _ => none

/-- There is an id nobody has locked a row of. -/
theorem exists_unlocked (s : LedgerStore) : ∃ id, ∀ r i, (r, i) ∈ s.locks → r.rowId ≠ some id := by
  obtain ⟨id, hid⟩ := Infinite.exists_notMem_finset
    (s.locks.filterMap (fun l => l.1.rowId)).toFinset
  refine ⟨id, fun r i hr he => hid ?_⟩
  rw [List.mem_toFinset, List.mem_filterMap]
  exact ⟨(r, i), hr, he⟩

/-! ## Somebody can go on -/

/-- A session that has a statement left. -/
def Unfinished (w : LedgerWorld) (i : Sid) (t : Request) : Prop :=
  ∃ q k, w.sess i = some (t, .call q k)

/-- The request of a publisher. -/
def Request.Publishes (t : Request) : Prop := ∃ producer topic n, t = .publish producer topic n

/-- No two publishers are at work: the deployment has one replica of it. -/
def LonePublisher (w : LedgerWorld) : Prop :=
  ∀ i j t t', Unfinished w i t → Unfinished w j t' → t.Publishes → t'.Publishes → i = j

variable [Runtime]

section going

variable {db₀ : Db} {w : LedgerWorld} (h : ReachableFrom db₀ w)

include h

/-- What a session holds, and what it needs at its next statement. -/
theorem reachable_equipped {i : Sid} {t : Request} {p : Tx Reply} (hsess : w.sess i = some (t, p)) :
    ∃ H, Holds everything w.store i H ∧ Equipped engine OwnRow i p (fun _ H => H = ∅) H := by
  refine h.tracked (P := fun i _ p H => Equipped engine OwnRow i p (fun _ H => H = ∅) H)
    (fun i t => ?_) (fun i t q k H inp db aux e hP he => hP.2 inp db aux e he)
    (fun i t a p H hP hag => ?_) i t p hsess
  · rcases t.program_equipped (i := i) with h | h
    · exact h.mono (fun _ _ hq => hq.ownRow) (fun _ _ h => h)
    · exact h.mono (fun _ _ hq => hq.ownRow) (fun _ _ h => h)
  · have hempty : H = ∅ := hP
    subst hempty
    exact (Request.next_equipped hag).mono (fun _ _ hq => hq.ownRow) (fun _ _ h => h)

/-- A session that holds something has a statement left. -/
theorem holder_unfinished {r : Res} {i : Sid} (hr : (r, i) ∈ w.store.locks) :
    ∃ t, Unfinished w i t := by
  obtain ⟨⟨t, p⟩, hsess⟩ := h.attended hr
  obtain ⟨H, hH, hP⟩ := reachable_equipped h hsess
  have hin : r ∈ H := (hH r rfl).mp hr
  cases p with
  | call q k => exact ⟨t, q, k, hsess⟩
  | ret a =>
      have hempty : H = ∅ := hP
      rw [hempty] at hin
      exact absurd hin (Set.notMem_empty r)
  | raise x =>
      have hempty : H = ∅ := hP
      rw [hempty] at hin
      exact absurd hin (Set.notMem_empty r)

/-- All a publisher holds is events. -/
theorem publisher_holds {i : Sid} {t : Request} {p : Tx Reply} (hsess : w.sess i = some (t, p))
    (ht : t.Publishes) {r : Res} (hr : (r, i) ∈ w.store.locks) : ∃ id, r = .event id := by
  suffices hP : ∀ i t p, w.sess i = some (t, p) → ∃ H, Holds everything w.store i H ∧ (t.Publishes →
      p.Uses Stmt.stamps ∧ ∀ r ∈ H, ∃ id, r = Res.event id) by
    obtain ⟨H, hH, hP⟩ := hP i t p hsess
    exact (hP ht).2 r ((hH r rfl).mp hr)
  refine h.tracked (P := fun _ t p H => t.Publishes →
    p.Uses Stmt.stamps ∧ ∀ r ∈ H, ∃ id, r = Res.event id) ?_ ?_ ?_
  · rintro i t ⟨producer, topic, n, rfl⟩
    exact ⟨Uses.map (stamps_iteration producer topic n), fun r hr => absurd hr (Set.notMem_empty r)⟩
  · intro i t q k H inp db o e hP he ht
    obtain ⟨⟨hq, hk⟩, hH⟩ := hP ht
    refine ⟨hk e.ans, fun r hr => ?_⟩
    unfold Effect.held at hr
    cases hctl : e.ctl with
    | stay =>
        rw [hctl] at hr
        rcases hr with hr | ⟨hr, -⟩
        · exact hH r hr
        · have he : run q inp i db o = some e := he
          rcases hq with hq | ⟨id, t', rfl⟩
          · rw [run_silent hq he] at hr
            exact absurd hr List.not_mem_nil
          · rcases run_locks he r hr with ⟨v, hv, hr⟩ | ⟨id', hq, -⟩
            · cases hv
              exact ⟨id, List.mem_singleton.mp hr⟩
            · exact absurd hq (by simp)
    | commit => rw [hctl] at hr; exact absurd hr (Set.notMem_empty r)
    | abort => rw [hctl] at hr; exact absurd hr (Set.notMem_empty r)
  · rintro i t a p H - hag ⟨producer, topic, n, rfl⟩
    exact absurd hag (by simp [system, Request.next])

/-- A session other than a publisher can be given an answer for which it has to wait only for
ranked resources. -/
theorem answer_waits {i : Sid} {t : Request} {q : Stmt} {k : Except Exn q.Ans → Tx Reply}
    (hsess : w.sess i = some (t, .call q k)) (ht : ¬t.Publishes) :
    ∃ inp e, Faultless inp ∧ run q inp i (w.store.view engine i) w.store.aux = some e
      ∧ ∀ r ∈ e.locks, ∀ j, (r, j) ∈ w.store.locks → j ≠ i → (waitRank r).isSome := by
  obtain ⟨id, hid⟩ := exists_unlocked w.store
  obtain ⟨inp, e, hgood, hdraw, he⟩ := run_answered q i (w.store.view engine i) w.store.aux id
  refine ⟨inp, e, hgood, he, fun r hr j hj hne => ?_⟩
  have hfresh : ∀ r, r.rowId = some inp.uuid → (r, j) ∉ w.store.locks :=
    fun r hrow hl => hid r j hl (hdraw ▸ hrow)
  rcases run_locks he r hr with ⟨v, hv, hr⟩ | ⟨id', -, rfl⟩
  · cases q with
    | insertUser name email hash =>
        cases hv
        simp only [Write.footprint, List.mem_cons, List.not_mem_nil, or_false] at hr
        rcases hr with rfl | rfl
        · exact absurd hj (hfresh _ rfl)
        · rfl
    | insertWallet u c =>
        cases hv
        simp only [Write.footprint, List.mem_cons, List.not_mem_nil, or_false] at hr
        rcases hr with rfl | rfl <;> rfl
    | insertTransaction type st currency key =>
        cases hv
        rcases List.mem_cons.mp hr with rfl | hr
        · exact absurd hj (hfresh _ rfl)
        · obtain ⟨key', -, rfl⟩ := List.mem_map.mp hr
          rfl
    | updateStatus id' st =>
        -- the session holds the row itself
        cases hv
        rw [List.mem_singleton.mp hr] at hj
        obtain ⟨H, hH, hP⟩ := reachable_equipped h hsess
        have hown : (Res.transaction id', i) ∈ w.store.locks := (hH _ rfl).mpr (hP.1 id' st rfl)
        exact absurd (h.exclusive _ _ _ hj hown) hne
    | insertEntry =>
        cases hv
        rw [List.mem_singleton.mp hr] at hj
        exact absurd hj (hfresh _ rfl)
    | insertEvent =>
        cases hv
        rw [List.mem_singleton.mp hr] at hj
        exact absurd hj (hfresh _ rfl)
    | updatePublished id' t' =>
        -- only publishers update events
        have huses := (h.uses (P := fun (t : Request) (q : Stmt) => q.area ∈ t.areas)
          (by simp [LedgerStore.start, Store.init]) Request.program_keeps
          (fun t p hp => Request.next_keeps hp)).1 i t _ hsess
        have harea : Area.stamp ∈ t.areas := huses.1
        cases t with
        | publish producer topic n => exact absurd ⟨producer, topic, n, rfl⟩ ht
        | _ => exact absurd harea (by simp [Request.areas])
    | updateBalance | insertProcessed | insertStat | updateStat =>
        cases hv
        rw [List.mem_singleton.mp hr]
        rfl
    | _ => exact absurd hv (by simp [Stmt.write])
  · rfl

/-- **As long as somebody has a statement left, somebody can execute his**, and nothing has to go
wrong for it. -/
theorem exists_works (hlone : LonePublisher w) (hbusy : ¬Quiescent w) :
    ∃ w', Works system Faultless w w' := by
  let U : Set Sid := {i | ∃ t, Unfinished w i t ∧ ¬t.Publishes}
  by_cases hne : U.Nonempty
  · have hborn : ∀ i ∈ U, i < w.next := by
      rintro i ⟨t, ⟨q, k, hsess⟩, -⟩
      exact h.signed.born i _ hsess
    refine exists_able h.exclusive (h.climbs (fun i t => t.program_waits)
      (fun i t p hp => climbs_ofOthers (Request.next_equipped hp))).2 hborn hne ?_
    rintro i ⟨t, ⟨q, k, hsess⟩, ht⟩
    obtain ⟨inp, e, hgood, he, hwait⟩ := answer_waits h hsess ht
    refine ⟨t, q, k, inp, e, hsess, hgood, he, fun r hr j hj hji => ?_⟩
    have hrank := hwait r hr j hj hji
    obtain ⟨t', q', k', hsess'⟩ := holder_unfinished h hj
    refine ⟨hrank, t', ⟨q', k', hsess'⟩, fun hpub => ?_⟩
    obtain ⟨id, rfl⟩ := publisher_holds h hsess' hpub hj
    exact absurd hrank (by simp [waitRank])
  · -- then the one publisher is alone
    have hpub : ∀ i t, Unfinished w i t → t.Publishes := by
      intro i t hi
      by_contra ht
      exact hne ⟨i, t, hi, ht⟩
    obtain ⟨i, t, q, k, hsess⟩ : ∃ i t q k, w.sess i = some (t, .call q k) := by
      simpa only [Quiescent, not_forall, not_not] using hbusy
    obtain ⟨inp, e, hgood, -, he⟩ := run_answered q i (w.store.view engine i) w.store.aux 0
    refine works_of_free hsess hgood he (fun r hr j hj => ?_)
    obtain ⟨t', hj'⟩ := holder_unfinished h hj
    exact hlone j i t' t hj' ⟨q, k, hsess⟩ (hpub j t' hj') (hpub i t ⟨q, k, hsess⟩)

end going

/-! ## Everybody gets done -/

section done

variable {good : Inp → Prop} {w w' : LedgerWorld} {i : Sid} {t : Request}

/-- A statement starts nothing. -/
theorem works_unfinished (h : Works system good w w') (hi : Unfinished w' i t) :
    Unfinished w i t := by
  cases h with
  | @exec j t' q k inp r s' hsess _ _ =>
      obtain ⟨q', k', hi⟩ := hi
      by_cases he : i = j
      · subst he
        obtain ⟨rfl, -⟩ := Prod.mk.inj (Option.some.inj ((upd_self w.sess i _).symm.trans hi))
        exact ⟨q, k, hsess⟩
      · exact ⟨q', k', (upd_ne w.sess _ he).symm.trans hi⟩

/-- And it loses nobody. -/
theorem works_stays (h : Works system good w w') {p : Tx Reply} (hi : w.sess i = some (t, p)) :
    ∃ p', w'.sess i = some (t, p') := by
  cases h with
  | @exec j t' q k inp r s' hsess _ _ =>
      by_cases he : i = j
      · subst he
        rw [hi] at hsess
        cases hsess
        exact ⟨_, upd_self _ _ _⟩
      · exact ⟨p, (upd_ne w.sess _ he).trans hi⟩

theorem LonePublisher.worked (h : LonePublisher w)
    (hw : Relation.ReflTransGen (Works system good) w w') :
    LonePublisher w' := by
  induction hw with
  | refl => exact h
  | tail _ hs ih =>
      exact fun i j t t' hi hj => ih i j t t' (works_unfinished hs hi) (works_unfinished hs hj)

/-- Every session of `w` has ended by `w'`. -/
def AllEnded (w w' : LedgerWorld) : Prop :=
  ∀ i t p, w.sess i = some (t, p) → ∃ r, ended w' i = some (t, r)

theorem allEnded_of_quiescent (hrest : Quiescent w')
    (hw : Relation.ReflTransGen (Works system good) w w') :
    AllEnded w w' := by
  intro i t p hi
  obtain ⟨p', hp'⟩ : ∃ p', w'.sess i = some (t, p') := by
    clear hrest
    induction hw with
    | refl => exact ⟨p, hi⟩
    | tail _ hs ih =>
        obtain ⟨p', hp'⟩ := ih
        exact works_stays hs hp'
  unfold ended
  rw [hp']
  cases p' with
  | call q k => exact absurd hp' (hrest i t q k)
  | ret a => exact ⟨.ok a, rfl⟩
  | raise x => exact ⟨.error x, rfl⟩

end done

/-- **Every request that has been made is answered.** From any state the statements of the sessions
there are run out, whoever executes his next one and whatever goes wrong; at any time before that
some session can execute its next statement without anything going wrong; so they can all be brought
to their ends that way. -/
theorem reachable_completes (db₀ : Db) (w : LedgerWorld) (h : ReachableFrom db₀ w)
    (hlone : LonePublisher w) :
    Acc (fun w₂ w₁ => Works system (fun _ => True) w₁ w₂) w
    ∧ (∀ w', Relation.ReflTransGen (Works system (fun _ => True)) w w' → ¬Quiescent w' →
        ∃ w'', Works system Faultless w' w'')
    ∧ ∃ w', Relation.ReflTransGen (Works system Faultless) w w' ∧ AllEnded w w' := by
  refine ⟨works_acc h.signed.born, fun w' hw hbusy => ?_, ?_⟩
  · exact exists_works (h.worked hw) (hlone.worked hw) hbusy
  · obtain ⟨w', hw, hrest⟩ := exists_quiescent (works_acc h.signed.born)
      (fun w₁ h₁ hbusy => exists_works (h.worked h₁) (hlone.worked h₁) hbusy)
    exact ⟨w', hw, allEnded_of_quiescent hrest hw⟩

/-- Nobody in `w` is a publisher. -/
def publisherless (w : LedgerWorld) : Bool :=
  (List.range w.next).all fun i => match w.sess i with
    | some (.publish _ _ _, _) => false
    | _ => true

omit [Runtime] in
theorem lone_of_publisherless {w : LedgerWorld} (hb : ∀ i x, w.sess i = some x → i < w.next)
    (h : publisherless w = true) : LonePublisher w := by
  rintro i _ t _ ⟨q, k, hi⟩ - ⟨producer, topic, n, rfl⟩ -
  have hno := List.all_eq_true.mp h i (List.mem_range.mpr (hb i _ hi))
  rw [hi] at hno
  exact absurd hno (by simp)

omit [Runtime] in
/-- The two opposed transfers, of which one waits for the other. -/
theorem opposed_completes : ∃ w, (@ReachableFrom plainRuntime .empty w
    ∧ Waits (@system plainRuntime) lockRank w 6 5)
    ∧ Acc (fun w₂ w₁ => Works (@system plainRuntime) (fun _ => True) w₁ w₂) w
    ∧ (∀ w', Relation.ReflTransGen (Works (@system plainRuntime) (fun _ => True)) w w'
      → ¬Quiescent w' →
        ∃ w'', Works (@system plainRuntime) Faultless w' w'')
    ∧ ∃ w', Relation.ReflTransGen (Works (@system plainRuntime) Faultless) w w'
      ∧ AllEnded w w' := by
  obtain ⟨w, hr, hw⟩ := exists_runPlain .empty opposed (fun w => (nextStmt w 6,
    ((w.store.view engine 6).wallets.get 31).isSome, decide ((.wallet 31, 5) ∈ w.store.locks),
      publisherless w))
    (v := (some (.selectWalletForUpdate 31), true, true, true)) (by decide +kernel)
  obtain ⟨t, k, hsess⟩ := nextStmt_some (congrArg Prod.fst hw)
  have hrow := congrArg (fun x => x.2.1) hw
  have hlock := of_decide_eq_true (congrArg (fun x => x.2.2.1) hw)
  have hlone := lone_of_publisherless hr.signed.born (congrArg (fun x => x.2.2.2) hw)
  refine ⟨w,
    ⟨hr, ((31 : Uuid) : WithTop
      Uuid), by decide, t, _, k, {}, _, .wallet 31, hsess, rfl, ?_, rfl, hlock⟩,
    @reachable_completes plainRuntime .empty w hr hlone⟩
  show Res.wallet 31 ∈ (if ((w.store.view engine 6).wallets.get 31).isSome
    then [Res.wallet 31] else [])
  rw [if_pos hrow]
  simp

end WalletLedger
