import Mathlib.Data.List.Infix
import WalletLedger.Isolation.Trail
import WalletLedger.Proof.Effects

/-!
# The record is permanent

Tables only grow at the end, and of the rows that are there a commit changes a balance, a
publication stamp or the rollup, and nothing else. For most tables this holds write by write. A
transaction is updated once after its INSERT, to COMPLETED; that this happens in the commit that
brings the row is what `Legal` says.
-/

namespace WalletLedger

open Isolation

/-- The columns of a wallet that are never updated. -/
def Wallet.identity (w : Wallet) : Uuid × Uuid × String × Int × Time :=
  (w.id, w.userId, w.currency, w.lockedBalance, w.createdAt)

/-- Everything that is on record in `db` is on record in `db'`, in the same order, and whatever else
is there has come behind it. -/
structure Db.Extends (db db' : Db) : Prop where
  users : db.users.rows <+: db'.users.rows
  wallets : db.wallets.rows.map Wallet.identity <+: db'.wallets.rows.map Wallet.identity
  transactions : db.transactions.rows <+: db'.transactions.rows
  entries : db.ledgerEntries.rows <+: db'.ledgerEntries.rows
  events : db.outboxEvents.rows.map OutboxEvent.unstamped <+: db'.outboxEvents.rows.map
    OutboxEvent.unstamped
  published : ∀ e ∈ db.outboxEvents.rows, e.publishedAt.isSome = true →
    ∃ e' ∈ db'.outboxEvents.rows, e'.id = e.id ∧ e'.publishedAt.isSome = true
  processed : db.processedEvents.rows <+: db'.processedEvents.rows
  stats : db.transactionStats.rows.map TransactionStat.key <+: db'.transactionStats.rows.map
    TransactionStat.key

namespace Db.Extends

variable {db db' db₁ db₂ db₃ : Db}

theorem refl (db : Db) : db.Extends db where
  users := List.prefix_rfl
  wallets := List.prefix_rfl
  transactions := List.prefix_rfl
  entries := List.prefix_rfl
  events := List.prefix_rfl
  published := fun e he hp => ⟨e, he, rfl, hp⟩
  processed := List.prefix_rfl
  stats := List.prefix_rfl

theorem trans (h₁ : db₁.Extends db₂) (h₂ : db₂.Extends db₃) : db₁.Extends db₃ where
  users := h₁.users.trans h₂.users
  wallets := h₁.wallets.trans h₂.wallets
  transactions := h₁.transactions.trans h₂.transactions
  entries := h₁.entries.trans h₂.entries
  events := h₁.events.trans h₂.events
  published := by
    intro e he hp
    obtain ⟨e', he', hid, hp'⟩ := h₁.published e he hp
    obtain ⟨e'', he'', hid', hp''⟩ := h₂.published e' he' hp'
    exact ⟨e'', he'', hid'.trans hid, hp''⟩
  processed := h₁.processed.trans h₂.processed
  stats := h₁.stats.trans h₂.stats

end Db.Extends

/-! ## One write -/

section tables

variable {α κ β : Type} {key : α → κ} [DecidableEq κ] {t : Table α κ key} {g : α → β}

theorem prefix_insert (t : Table α κ key) (a : α) : t.rows <+: (t.insert a).rows := by
  unfold Table.insert
  split
  · exact List.prefix_rfl
  · exact List.prefix_append _ _

/-- An UPDATE keeps whatever it does not change. -/
theorem map_modify {k : κ} {f : α → α} (hf : ∀ a, key (f a) = key a) (hg : ∀ a, g (f a) = g a) :
    (t.modify k f hf).rows.map g = t.rows.map g := by
  rw [Table.rows_modify, List.map_map]
  refine List.map_congr_left (fun a _ => ?_)
  by_cases h : key a = k
  · simp [h, hg]
  · simp [h]

end tables

/-- Every write but the update of a status. -/
theorem extends_apply (db : Db) {w : Write} (h : ∀ id st, w ≠ .setStatus id st) :
    db.Extends (db.apply w) := by
  have same := Db.Extends.refl db
  cases w with
  | insertUser u => exact { same with users := prefix_insert _ u }
  | insertWallet x => exact { same with wallets := (prefix_insert _ x).map _ }
  | setBalance id b now =>
      have hsame : (db.apply (.setBalance id b now)).wallets.rows.map Wallet.identity
          = db.wallets.rows.map Wallet.identity :=
        map_modify (f := Wallet.setBalance b now) (fun _ => rfl) (fun _ => rfl)
      exact { same with wallets := by rw [hsame] }
  | insertTransaction t => exact { same with transactions := prefix_insert _ t }
  | setStatus id st => exact absurd rfl (h id st)
  | insertEntry e => exact { same with entries := prefix_insert _ e }
  | insertEvent e =>
      refine { same with events := (prefix_insert _ e).map _, published := fun x hx hp => ?_ }
      exact ⟨x, Table.mem_insert_of_mem hx, rfl, hp⟩
  | setPublished id now =>
      refine { same with events := ?_, published := fun x hx hp => ?_ }
      · rw [rows_stamp]
      · have hrows : (db.apply (.setPublished id now)).outboxEvents.rows
            = db.outboxEvents.rows.map (fun e => if e.id = id then e.stamp now else e) := rfl
        refine ⟨if x.id = id then x.stamp now else
          x, by rw [hrows]; exact List.mem_map_of_mem hx, ?_⟩
        by_cases hid : x.id = id
        · rw [if_pos hid]
          exact ⟨rfl, rfl⟩
        · rw [if_neg hid]
          exact ⟨rfl, hp⟩
  | insertProcessed p => exact { same with processed := prefix_insert _ p }
  | insertStat r => exact { same with stats := (prefix_insert _ r).map _ }
  | setStat k c total =>
      have hsame : (db.apply (.setStat k c total)).transactionStats.rows.map TransactionStat.key
          = db.transactionStats.rows.map TransactionStat.key :=
        map_modify (f := TransactionStat.set c total) (fun _ => rfl) (fun _ => rfl)
      exact { same with stats := by rw [hsame] }

/-! ## One commit -/

theorem identity_post (s : Side) (d : Int) (m : Minted) (t : Table Wallet Uuid Wallet.id) :
    (s.post d m t).rows.map Wallet.identity = t.rows.map Wallet.identity := by
  cases s with
  | funding => rfl
  | wallet w => exact map_modify (f := Wallet.setBalance _ _) (fun _ => rfl) (fun _ => rfl)

theorem extends_posted {mv : Movement} {m : Minted} {db db' : Db} (h : Posted mv m db db') :
    db.Extends db' where
  users := by rw [h.users]
  wallets := by rw [h.wallets, identity_post, identity_post]
  transactions := by rw [h.transactions]; exact List.prefix_append _ _
  entries := by rw [h.entries]; exact List.prefix_append _ _
  events := by rw [h.events, List.map_append]; exact List.prefix_append _ _
  published := fun e he hp => ⟨e, by rw [h.events]; exact List.mem_append_left _ he, rfl, hp⟩
  processed := by rw [h.processed]
  stats := by rw [h.stats]

variable [Runtime]

/-- **A commit only adds to the record.** -/
theorem Legal.extends {t : Request} {db : Db} {ws : List Write} (h : Legal t db ws) :
    db.Extends (db.applyAll ws) := by
  rcases h.cases with ⟨u, -, rfl⟩ | ⟨x, -, -, rfl⟩ | ⟨mv, m, -, hok, hu, rfl⟩ | hw
  · exact extends_apply (w := .insertUser u) db (by simp)
  · exact extends_apply (w := .insertWallet x) db (by simp)
  · exact extends_posted (Movement.posted hok.shaped hu)
  · clear h
    induction ws generalizing db with
    | nil => exact .refl db
    | cons w ws ih =>
        have hfirst : db.Extends (db.apply w) :=
          extends_apply db (fun id st he => hw w (by simp) (by rw [he]; rfl))
        exact hfirst.trans (ih (fun v hv => hw v (by simp [hv])))

theorem Evolves.extends {db db' : Db} (h : Evolves db db') : db.Extends db' := by
  obtain ⟨cs, hc⟩ := h
  exact hc.induct (P := fun d => db.Extends d) (.refl db) (fun _ _ _ hl hd => hd.trans hl.extends)

/-! ## Every run -/

/-- **What has been committed stays**, from any state of a run to any later one: accounts, wallets,
transactions, legs, events and inbox entries keep their place, their values and their order. -/
theorem reachable_extends (db₀ : Db) (w w' : LedgerWorld) (h : ReachableFrom db₀ w)
    (hl : Later system w w') :
    w.store.db.Extends w'.store.db := by
  have hr := h.later hl
  obtain ⟨hle, hdb⟩ := hl.past h
  have hchain := (reachable_settled hr).chain hle
  rw [hdb, hr.past.1]
  exact Evolves.extends ⟨_, hchain⟩

omit [Runtime] in
/-- The opening, and a withdrawal after it. -/
theorem opening_extends : ∃ w w',
    (@ReachableFrom plainRuntime .empty w ∧ Later (@system plainRuntime) w w'
    ∧ w.store.db.ledgerEntries.rows.length = 2 ∧ w'.store.db.ledgerEntries.rows.length = 4)
    ∧ w.store.db.Extends w'.store.db := by
  obtain ⟨w, w', hr, hl, hv⟩ := exists_laterPlain .empty opening
    ([.spawn (.withdraw 31 12 (withdrawalOf 60) none)] ++ advance 5 14 70)
    (fun w w' => (w.store.db.ledgerEntries.rows.length, w'.store.db.ledgerEntries.rows.length))
    (v := (2, 4)) (by decide +kernel)
  exact ⟨w, w', ⟨hr, hl, congrArg Prod.fst hv, congrArg Prod.snd hv⟩,
    @reachable_extends plainRuntime .empty w w' hr hl⟩

end WalletLedger
