import WalletLedger.Db.Growth
import WalletLedger.Spec.Movement

/-!
# Histories of commits

The abstract system: a database changed by one atomic commit after another. Each
commit belongs to a request, and `Legal` says which write sets that request may
commit on which database, all conditions being about the database *at the
commit*. Between a request's first look at the database and its commit anything
may have happened in the real system; that it nevertheless commits only legal
write sets is what the simulation proves.
-/

namespace WalletLedger

open Isolation

variable [Runtime]

/-- The movements a request asks for, given the rows it finds. -/
def Request.Moves : Request → Movement → Prop
  | .deposit walletId requesterId data, mv =>
      ∃ w : Wallet, w.id = walletId ∧ w.userId = requesterId ∧ w.currency = upper data.currency
        ∧ mv = ⟨.deposit, w.currency, none, data.amount, .funding, .wallet w⟩
  | .transfer senderId requesterId data key, mv =>
      ∃ s r : Wallet, s.id = senderId ∧ s.userId = requesterId ∧ s.currency = upper data.currency
        ∧ r.id = data.recipientWalletId ∧ r.currency = s.currency
          ∧ senderId ≠ data.recipientWalletId
        ∧ mv = ⟨.transfer, s.currency, key, data.amount, .wallet s, .wallet r⟩
  | .withdraw walletId requesterId data key, mv =>
      ∃ w : Wallet, w.id = walletId ∧ w.userId = requesterId ∧ w.currency = upper data.currency
        ∧ mv = ⟨.withdrawal, w.currency, key, data.amount, .wallet w, .funding⟩
  | _, _ => False

/-- The requests that move money. -/
def Request.movesMoney : Request → Bool
  | .deposit _ _ _ | .transfer _ _ _ _ | .withdraw _ _ _ _ => true
  | _ => false

/-- The area in which a worker writes. -/
def Request.area : Request → Area
  | .publish _ _ _ => .stamp
  | .handleEvent _ | .analyticsConsumer => .inbox
  | _ => .book

/-- The write sets a request may commit on a database. Of the workers it is only
said where they write. -/
def Legal (t : Request) (db : Db) (ws : List Write) : Prop :=
  match t with
  | .register data =>
      ∃ u : User, u.name = data.name ∧ u.email = data.email ∧ db.users.get u.id = none
        ∧ db.userByEmail u.email = none ∧ ws = [.insertUser u]
  | .createWallet ownerId data =>
      ∃ w : Wallet, w.userId = ownerId ∧ w.currency = upper data.currency
        ∧ w.availableBalance = 0 ∧ w.lockedBalance = 0 ∧ db.wallets.get w.id = none
        ∧ db.walletByUserAndCurrency w.userId w.currency = none ∧ ws = [.insertWallet w]
  | .publish _ _ _ | .handleEvent _ | .analyticsConsumer => ∀ w ∈ ws, w.area = t.area
  | t => ∃ mv m, t.Moves mv ∧ mv.Ok db ∧ m.Unused db ∧ ws = mv.writes m

/-- A committed write set of the system. -/
abbrev LedgerCommit := Commit Write Request

/-- Session and request of a commit. -/
def requestOf (c : LedgerCommit) : Sid × Request := (c.sid, c.tag)

/-- A sequence of legal commits leads from one database to another. -/
inductive Chain : Db → List LedgerCommit → Db → Prop where
  | nil (db : Db) : Chain db [] db
  | cons {db db' : Db} {c : LedgerCommit} {cs : List LedgerCommit} :
      Legal c.tag db c.writes → Chain (db.applyAll c.writes) cs db' → Chain db (c :: cs) db'

namespace Chain

variable {db db₁ db₂ db₃ : Db} {cs cs' : List LedgerCommit} {c : LedgerCommit}

theorem append (h₁ : Chain db₁ cs db₂) (h₂ : Chain db₂ cs' db₃) : Chain db₁ (cs ++ cs') db₃ := by
  induction h₁ with
  | nil => exact h₂
  | cons hl _ ih => exact .cons hl (ih h₂)

theorem single (h : Legal c.tag db c.writes) : Chain db [c] (db.applyAll c.writes) :=
  .cons h (.nil _)

/-- Split a history at any point. -/
theorem split (h : Chain db₁ (cs ++ cs') db₃) : ∃ db₂, Chain db₁ cs db₂ ∧ Chain db₂ cs' db₃ := by
  induction cs generalizing db₁ with
  | nil => exact ⟨db₁, .nil _, h⟩
  | cons c cs ih =>
      cases h with
      | cons hl hr =>
          obtain ⟨db₂, h₁, h₂⟩ := ih hr
          exact ⟨db₂, .cons hl h₁, h₂⟩

/-- A history determines the database it leads to. -/
theorem eq (h : Chain db cs db₁) : db₁ = db.applyAll (cs.flatMap Commit.writes) := by
  induction h with
  | nil => rfl
  | cons _ _ ih => rw [List.flatMap_cons, Db.applyAll_append]; exact ih

/-- A commit in the middle of a history, with the database before it. -/
theorem at_commit (h : Chain db (cs ++ c :: cs') db₁) :
    Legal c.tag (db.applyAll (cs.flatMap Commit.writes)) c.writes := by
  obtain ⟨db₂, h₁, h₂⟩ := h.split
  cases h₂ with
  | cons hl _ => rw [← h₁.eq]; exact hl

/-- Every commit of a history was legal where it was made. -/
theorem legal (h : Chain db cs db') (hc : c ∈ cs) : ∃ d, Legal c.tag d c.writes := by
  induction h with
  | nil => exact absurd hc (by simp)
  | cons hl _ ih =>
      rcases List.mem_cons.mp hc with rfl | hc
      · exact ⟨_, hl⟩
      · exact ih hc

/-- **Induction over histories.** A property every legal commit preserves holds at
the end if it holds at the start. -/
theorem induct {P : Db → Prop} (h : Chain db cs db') (h₀ : P db)
    (hs : ∀ t db ws, Legal t db ws → P db → P (db.applyAll ws)) : P db' := by
  induction h with
  | nil => exact h₀
  | cons hl _ ih => exact ih (hs _ _ _ hl h₀)

end Chain

/-- One database comes from another by legal commits. -/
def Evolves (db db' : Db) : Prop := ∃ cs, Chain db cs db'

theorem Evolves.refl (db : Db) : Evolves db db := ⟨[], .nil db⟩

theorem Evolves.trans {db₁ db₂ db₃ : Db} (h₁ : Evolves db₁ db₂) (h₂ : Evolves db₂ db₃) :
    Evolves db₁ db₃ := by
  obtain ⟨cs, h₁⟩ := h₁
  obtain ⟨cs', h₂⟩ := h₂
  exact ⟨cs ++ cs', h₁.append h₂⟩

/-! ## What a commit can be -/

/-- **Everything a commit can do**: a new user, a new wallet, a movement, or the work
of the publisher and the consumers, which keeps out of the books. -/
theorem Legal.cases {t : Request} {db : Db} {ws : List Write} (h : Legal t db ws) :
    (∃ u : User, db.users.get u.id = none ∧ ws = [.insertUser u])
    ∨ (∃ w : Wallet, w.availableBalance = 0 ∧ db.wallets.get w.id = none ∧ ws = [.insertWallet w])
    ∨ (∃ mv m, t.Moves mv ∧ mv.Ok db ∧ m.Unused db ∧ ws = mv.writes m)
    ∨ ∀ w ∈ ws, w.area ≠ .book := by
  cases t with
  | register data =>
      obtain ⟨u, _, _, hu, _, rfl⟩ := h
      exact .inl ⟨u, hu, rfl⟩
  | createWallet o data =>
      obtain ⟨w, _, _, hb, _, hw, _, rfl⟩ := h
      exact .inr (.inl ⟨w, hb, hw, rfl⟩)
  | deposit | transfer | withdraw | getBalance | listTransactions | reconcile =>
      exact .inr (.inr (.inl h))
  | publish p topic n =>
      exact .inr (.inr (.inr (fun w hw he => Area.noConfusion (he.symm.trans (h w hw)))))
  | handleEvent p =>
      exact .inr (.inr (.inr (fun w hw he => Area.noConfusion (he.symm.trans (h w hw)))))
  | analyticsConsumer =>
      exact .inr (.inr (.inr (fun w hw he => Area.noConfusion (he.symm.trans (h w hw)))))

theorem Legal.movement {t : Request} {db : Db} {ws : List Write} (h : Legal t db ws)
    (ht : t.movesMoney = true) :
    ∃ mv m, t.Moves mv ∧ mv.Ok db ∧ m.Unused db ∧ ws = mv.writes m := by
  cases t with
  | deposit | transfer | withdraw => exact h
  | _ => exact absurd ht (by simp [Request.movesMoney])

/-! ## What a history leaves alone -/

/-- **A committed transaction is final**: neither its header nor its legs change. -/
theorem Evolves.final {db db' : Db} (h : Evolves db db') {id : Uuid} {t : Transaction}
    (ht : db.transactions.get id = some t) :
    db'.transactions.get id = some t ∧ db'.entriesOfTransaction id
      = db.entriesOfTransaction id := by
  obtain ⟨cs, hc⟩ := h
  refine hc.induct (P := fun d => d.transactions.get id = some t
    ∧ d.entriesOfTransaction id = db.entriesOfTransaction id) ⟨ht, rfl⟩ ?_
  rintro q d ws hl ⟨h₁, h₂⟩
  rcases hl.cases with ⟨u, -, rfl⟩ | ⟨w, -, -, rfl⟩ | ⟨mv, m, -, hok, hu, rfl⟩ | hw
  · exact ⟨h₁, h₂⟩
  · exact ⟨h₁, h₂⟩
  · have hp := Movement.posted hok.shaped hu
    have hne : m.txn ≠ id := by
      rintro rfl
      rw [hu.txn] at h₁
      exact absurd h₁ (by simp)
    refine ⟨?_, (entries_posted hp hne).trans h₂⟩
    obtain ⟨hm, hk⟩ := Table.get_eq_some.mp h₁
    exact Table.get_eq_some.mpr ⟨by rw [hp.transactions]; exact List.mem_append_left _ hm, hk⟩
  · have hs := sameBooks_applyAll d hw
    rw [Db.entriesOfTransaction, hs.entries, hs.transactions]
    exact ⟨h₁, h₂⟩

theorem Evolves.grows {db db' : Db} (h : Evolves db db') : db.Grows db' := by
  obtain ⟨cs, hc⟩ := h
  exact hc.induct (P := fun d => db.Grows d) (.refl db)
    (fun _ d ws _ hg => hg.trans (.applyAll d ws))

end WalletLedger
