import WalletLedger.Db.Statements

/-!
# Nothing is deleted

The application never deletes a row, and updates only a few columns. So whatever
else has been committed in the meantime, a row that was there is still there, and
a key that is free now was free before.
-/

namespace WalletLedger

open Isolation

/-! ## Rows stay -/

/-- Every row of `db` is in `db'`, in all columns that are never updated. -/
structure Db.Grows (db db' : Db) : Prop where
  users : ∀ id u, db.users.get id = some u → db'.users.get id = some u
  wallets : ∀ id w, db.wallets.get id = some w →
    ∃ w', db'.wallets.get id = some w' ∧ w'.userId = w.userId ∧ w'.currency = w.currency
  transactions : ∀ id t, db.transactions.get id = some t →
    ∃ t', db'.transactions.get id = some t' ∧ t.setStatus t'.status = t'
  events : ∀ id e, db.outboxEvents.get id = some e →
    ∃ e', db'.outboxEvents.get id = some e' ∧ { e with publishedAt := e'.publishedAt } = e'
  processed : ∀ k p, db.processedEvents.get k = some p → db'.processedEvents.get k = some p

namespace Db.Grows

variable {db db₁ db₂ db₃ : Db}

theorem refl (db : Db) : db.Grows db where
  users := fun _ _ h => h
  wallets := fun _ w h => ⟨w, h, rfl, rfl⟩
  transactions := fun _ t h => ⟨t, h, rfl⟩
  events := fun _ e h => ⟨e, h, rfl⟩
  processed := fun _ _ h => h

theorem trans (h₁ : db₁.Grows db₂) (h₂ : db₂.Grows db₃) : db₁.Grows db₃ where
  users := fun id u h => h₂.users id u (h₁.users id u h)
  wallets := by
    intro id w h
    obtain ⟨w', hw', hu, hc⟩ := h₁.wallets id w h
    obtain ⟨w'', hw'', hu', hc'⟩ := h₂.wallets id w' hw'
    exact ⟨w'', hw'', hu'.trans hu, hc'.trans hc⟩
  transactions := by
    intro id t h
    obtain ⟨t', ht', he⟩ := h₁.transactions id t h
    obtain ⟨t'', ht'', he'⟩ := h₂.transactions id t' ht'
    exact ⟨t'', ht'', by rw [← he', ← he]; rfl⟩
  events := by
    intro id e h
    obtain ⟨e', he', hp⟩ := h₁.events id e h
    obtain ⟨e'', he'', hp'⟩ := h₂.events id e' he'
    exact ⟨e'', he'', by rw [← hp', ← hp]⟩
  processed := fun k p h => h₂.processed k p (h₁.processed k p h)

/-- One write. -/
theorem apply (db : Db) (w : Write) : db.Grows (db.apply w) := by
  have same := refl db
  cases w with
  | insertUser u =>
      exact { same with users := fun _ _ h => Table.get_insert_of_some h }
  | insertWallet w =>
      exact { same with wallets := fun _ w' h => ⟨w', Table.get_insert_of_some h, rfl, rfl⟩ }
  | setBalance id b now =>
      exact { same with
        wallets := fun _ _ h => Table.get_modify_some (f := Wallet.setBalance b now) (by intro; rfl)
          (R := fun a b => b.userId = a.userId ∧ b.currency = a.currency) h ⟨rfl, rfl⟩ ⟨rfl, rfl⟩ }
  | insertTransaction t =>
      exact { same with transactions := fun _ t' h => ⟨t', Table.get_insert_of_some h, rfl⟩ }
  | setStatus id st =>
      exact { same with
        transactions := fun _ _ h => Table.get_modify_some (f := Transaction.setStatus st)
          (by intro; rfl) (R := fun a b => a.setStatus b.status = b) h rfl rfl }
  | insertEvent e =>
      exact { same with events := fun _ e' h => ⟨e', Table.get_insert_of_some h, rfl⟩ }
  | setPublished id now =>
      exact { same with
        events := fun _ _ h => Table.get_modify_some (f := OutboxEvent.stamp now)
          (by intro; rfl) (R := fun a b => { a with publishedAt := b.publishedAt } = b) h rfl rfl }
  | insertProcessed p =>
      exact { same with processed := fun _ _ h => Table.get_insert_of_some h }
  | insertEntry e => exact { same with }
  | insertStat r => exact { same with }
  | setStat k c total => exact { same with }

theorem applyAll (db : Db) (ws : List Write) : db.Grows (engine.applyAll db ws) := by
  induction ws generalizing db with
  | nil => exact refl db
  | cons w ws ih => exact (apply db w).trans (ih (db.apply w))

end Db.Grows

/-! ## Keys that are free -/

/-- Nothing is stored under a resource. -/
def Res.Absent : Res → Db → Prop
  | .user id, db => db.users.get id = none
  | .email e, db => db.userByEmail e = none
  | .wallet id, db => db.wallets.get id = none
  | .walletOwner u c, db => db.walletByUserAndCurrency u c = none
  | .transaction id, db => db.transactions.get id = none
  | .idempotencyKey k, db => db.transactionByKey k = none
  | .entry id, db => db.ledgerEntries.get id = none
  | .event id, db => db.outboxEvents.get id = none
  | .processed k, db => db.processedEvents.get k = none
  | .stat k, db => db.transactionStats.get k = none

/-- A free key stays free under its lock. -/
theorem Res.Absent.same {r : Res} {db db' : Db} (h : r.Absent db) (hs : r.same db db') :
    r.Absent db' := by
  cases r with
  | email | walletOwner | idempotencyKey =>
      simp only [Res.same, Res.Absent] at h hs ⊢
      rw [h, Option.map_none, Option.map_eq_none_iff] at hs
      exact hs
  | user | wallet | transaction | entry | event | processed | stat => exact Eq.trans hs h

section find

variable {α κ β : Type} {key : α → κ} [DecidableEq κ] {t : Table α κ key} {p : α → Bool}

theorem find?_of_insert_none {a : α} (h : (t.insert a).rows.find? p = none) :
    t.rows.find? p = none := by
  rw [List.find?_eq_none] at h ⊢
  exact fun b hb => h b (Table.mem_insert_of_mem hb)

theorem find?_of_modify_none {k : κ} {f : α → α} (hf : ∀ a, key (f a) = key a)
    (hp : ∀ a, p (f a) = p a) (h : (t.modify k f hf).rows.find? p = none) :
    t.rows.find? p = none := by
  have he := find?_modify (t := t) (k := k) (g := fun _ => ()) hf hp (fun _ => rfl)
  rw [h] at he
  exact Option.map_eq_none_iff.mp he.symm

end find

/-- A key that is free after a write was free before it. -/
theorem Res.Absent.of_apply {r : Res} {db : Db} {w : Write} (h : r.Absent (db.apply w)) :
    r.Absent db := by
  cases w with
  | insertUser u =>
      cases r with
      | user id => exact Table.get_of_insert_none h
      | email e => exact find?_of_insert_none h
      | _ => exact h
  | insertWallet w =>
      cases r with
      | wallet id => exact Table.get_of_insert_none h
      | walletOwner u c => exact find?_of_insert_none h
      | _ => exact h
  | setBalance id b now =>
      cases r with
      | wallet id => exact Table.get_of_modify_none (by intro; rfl) h
      | walletOwner u c =>
          exact find?_of_modify_none (f := Wallet.setBalance b now) (by intro; rfl) (fun _ => rfl) h
      | _ => exact h
  | insertTransaction t =>
      cases r with
      | transaction id => exact Table.get_of_insert_none h
      | idempotencyKey k => exact find?_of_insert_none h
      | _ => exact h
  | setStatus id st =>
      cases r with
      | transaction id => exact Table.get_of_modify_none (by intro; rfl) h
      | idempotencyKey k =>
          exact find?_of_modify_none (f := Transaction.setStatus st) (by intro; rfl)
            (fun _ => rfl) h
      | _ => exact h
  | insertEntry e =>
      cases r with
      | entry id => exact Table.get_of_insert_none h
      | _ => exact h
  | insertEvent e =>
      cases r with
      | event id => exact Table.get_of_insert_none h
      | _ => exact h
  | setPublished id now =>
      cases r with
      | event id => exact Table.get_of_modify_none (by intro; rfl) h
      | _ => exact h
  | insertProcessed p =>
      cases r with
      | processed k => exact Table.get_of_insert_none h
      | _ => exact h
  | insertStat x =>
      cases r with
      | stat k => exact Table.get_of_insert_none h
      | _ => exact h
  | setStat k c total =>
      cases r with
      | stat k => exact Table.get_of_modify_none (by intro; rfl) h
      | _ => exact h

theorem Res.Absent.of_applyAll {r : Res} {db : Db} {ws : List Write}
    (h : r.Absent (engine.applyAll db ws)) : r.Absent db := by
  induction ws generalizing db with
  | nil => exact h
  | cons w ws ih => exact (ih h).of_apply

end WalletLedger
