import WalletLedger.Isolation.Trail
import WalletLedger.Proof.Effects

/-!
# What a request asks of the state it meets

Whether a money operation goes through is decided by the committed state at its first
statement, if nobody disturbs it. This module says what there is to decide, without
statements: whether the request passes its checks and which movement it is then going to
make (`Request.Admits`), whether the key can be stored, and whether the integers the
movement consists of fit their columns (`Movement.hasRoom_iff`).

The balances that are read are in range already: no statement has ever stored one that
was not (`reachable_inColumns`).
-/

namespace WalletLedger

open Isolation

/-! ## What the columns of a wallet hold -/

theorem checkBalance_eq_none {b : Int} : checkBalance b = none ↔ 0 ≤ b ∧ b < 2 ^ 63 := by
  simp only [checkBalance, firstError_eq_none, fitsBigint, List.forall_mem_cons, Bool.and_eq_true,
    decide_eq_true_eq]
  constructor
  · rintro ⟨⟨-, hlt⟩, hpos, -⟩
    exact ⟨hpos, hlt⟩
  · rintro ⟨hpos, hlt⟩
    exact ⟨⟨by omega, hlt⟩, hpos, by simp⟩

/-- The values of a row fit their columns and pass its constraint. -/
def Wallet.InColumns (w : Wallet) : Prop :=
  w.currency.length ≤ 3 ∧ checkBalance w.availableBalance = none

/-- The rows of the table do. -/
def Db.InColumns (db : Db) : Prop := ∀ w ∈ db.wallets.rows, w.InColumns

/-- What a write puts into the table does. -/
def Write.InColumns : Write → Prop
  | .insertWallet x => x.InColumns
  | .setBalance _ b _ => checkBalance b = none
  | _ => True

theorem Db.InColumns.get {db : Db} (h : db.InColumns) {id : Uuid} {w : Wallet}
    (hw : db.wallets.get id = some w) : w.InColumns := h w (Table.mem_of_get hw)

theorem Db.InColumns.apply {db : Db} (h : db.InColumns) {x : Write} (hx : x.InColumns) :
    (db.apply x).InColumns := by
  cases x with
  | insertWallet v =>
      intro w hw
      have hw : w ∈ (db.wallets.insert v).rows := hw
      rcases Table.mem_of_mem_insert hw with hw | rfl
      · exact h w hw
      · exact hx
  | setBalance id b now =>
      intro w hw
      obtain ⟨v, hv, rfl⟩ := List.mem_map.mp hw
      by_cases hid : v.id = id
      · simp only [hid, if_true]
        exact ⟨(h v hv).1, hx⟩
      · simp only [hid, if_false]
        exact h v hv
  | _ => exact h

theorem Db.InColumns.applyAll {db : Db} {ws : List Write} (h : db.InColumns)
    (hws : ∀ x ∈ ws, x.InColumns) : (db.applyAll ws).InColumns := by
  induction ws generalizing db with
  | nil => exact h
  | cons x ws ih =>
      rw [Db.applyAll_cons]
      exact ih (h.apply (hws x (by simp))) (fun y hy => hws y (by simp [hy]))

/-- What has been written has passed its check. -/
theorem check_of_writes {β : Type} {inp : Inp} {o o' : Outside} {check clash : Option DbError}
    {locks : List Res} {w x : Write} {a : β}
    (hx : x ∈ (writes inp o check locks clash w a o').writes) : x = w ∧ check = none := by
  unfold writes at hx
  split at hx
  · exact absurd hx (by simp [failed])
  · exact absurd hx (by simp [failed])
  · exact absurd hx (by simp [failed])
  · exact ⟨List.mem_singleton.mp hx, rfl⟩

/-- **No statement stores what does not fit.** -/
theorem run_inColumns {q : Stmt} {inp : Inp} {i : Sid} {db : Db} {o : Outside}
    {e : Effect Write Res Outside Exn q.Ans} (h : run q inp i db o = some e) :
    ∀ x ∈ e.writes, x.InColumns := by
  intro x hx
  rcases (run_within h).writes with h₀ | ⟨y, h₁, hy, -⟩
  · rw [h₀] at hx
    exact absurd hx (by simp)
  rw [h₁, List.mem_singleton] at hx
  subst hx
  cases q with
  | insertWallet userId currency =>
      cases h
      obtain ⟨rfl, hc⟩ := check_of_writes (x := x) (by rw [← inserts, h₁]; simp)
      obtain ⟨hlen, -⟩ : _ ∧ _ := by simpa [checkWallet, firstError_eq_none] using hc
      exact ⟨hlen, rfl⟩
  | updateBalance id b =>
      cases h
      obtain ⟨rfl, hc⟩ := check_of_writes (x := x) (by rw [← updates, h₁]; simp)
      exact hc
  | _ =>
      simp only [Stmt.write, Option.some.injEq, reduceCtorEq] at hy
      try subst hy
      try trivial

variable [Runtime]

/-- Whatever is committed has been checked: so every state of a run is in range if the first is. -/
theorem reachable_inColumns {db₀ : Db} {w : LedgerWorld} (h : ReachableFrom db₀ w)
    (h₀ : db₀.InColumns) (n : Nat) : (w.store.past engine db₀ n).InColumns := by
  obtain ⟨-, -, hcommits⟩ := h.writes (P := fun _ _ => True) (W := fun _ x => x.InColumns)
    (fun _ => .any _) (fun _ p _ => .any p) (fun _ he => run_inColumns he)
  refine h₀.applyAll (fun x hx => ?_)
  obtain ⟨c, hc, hx⟩ := List.mem_flatMap.mp hx
  exact hcommits c (List.mem_of_mem_take hc) x hx

/-! ## Which movement a request makes -/

/-- The rows of a movement are current, and its source has the money. -/
structure Movement.Backed (db : Db) (mv : Movement) : Prop where
  source : ∀ w, mv.source = .wallet w →
    db.wallets.get w.id = some w ∧ mv.amount ≤ w.availableBalance
  target : ∀ w, mv.target = .wallet w → db.wallets.get w.id = some w

/-- A request passes its checks, and this is the movement it then makes. -/
structure Request.Admits (t : Request) (db : Db) (mv : Movement) : Prop where
  moves : t.Moves mv
  backed : mv.Backed db

section admits

variable {db : Db} {mv mv' : Movement} {w u : Uuid} {key : Option String}

theorem admits_deposit {data : DepositRequest} : (Request.deposit w u data).Admits db mv
    ↔ ∃ x, db.wallets.get w = some x ∧ x.userId = u ∧ x.currency = upper data.currency
      ∧ mv = ⟨.deposit, x.currency, none, data.amount, .funding, .wallet x⟩ := by
  constructor
  · rintro ⟨⟨x, rfl, hu, hc, rfl⟩, hb⟩
    exact ⟨x, hb.target x rfl, hu, hc, rfl⟩
  · rintro ⟨x, hx, hu, hc, rfl⟩
    have hid : x.id = w := Table.key_of_get hx
    refine ⟨⟨x, hid, hu, hc, rfl⟩, by simp, ?_⟩
    rintro _ ⟨⟩
    rw [hid]
    exact hx

theorem admits_withdraw {data : WithdrawalRequest} : (Request.withdraw w u data key).Admits db mv
    ↔ ∃ x, db.wallets.get w = some x ∧ x.userId = u ∧ x.currency = upper data.currency
      ∧ data.amount ≤ x.availableBalance
      ∧ mv = ⟨.withdrawal, x.currency, key, data.amount, .wallet x, .funding⟩ := by
  constructor
  · rintro ⟨⟨x, rfl, hu, hc, rfl⟩, hb⟩
    obtain ⟨hx, hfunds⟩ := hb.source x rfl
    exact ⟨x, hx, hu, hc, hfunds, rfl⟩
  · rintro ⟨x, hx, hu, hc, hfunds, rfl⟩
    have hid : x.id = w := Table.key_of_get hx
    refine ⟨⟨x, hid, hu, hc, rfl⟩, ?_, by simp⟩
    rintro _ ⟨⟩
    rw [hid]
    exact ⟨hx, hfunds⟩

theorem admits_transfer {data : TransferRequest} : (Request.transfer w u data key).Admits db mv
    ↔ w ≠ data.recipientWalletId ∧ ∃ x y, db.wallets.get w = some x ∧ x.userId = u
      ∧ db.wallets.get data.recipientWalletId = some y ∧ x.currency = upper data.currency
      ∧ y.currency = x.currency ∧ data.amount ≤ x.availableBalance
      ∧ mv = ⟨.transfer, x.currency, key, data.amount, .wallet x, .wallet y⟩ := by
  constructor
  · rintro ⟨⟨x, y, rfl, hu, hc, hid, hc', hne, rfl⟩, hb⟩
    obtain ⟨hx, hfunds⟩ := hb.source x rfl
    exact ⟨hne, x, y, hx, hu, hid ▸ hb.target y rfl, hc, hc', hfunds, rfl⟩
  · rintro ⟨hne, x, y, hx, hu, hy, hc, hc', hfunds, rfl⟩
    have hidx : x.id = w := Table.key_of_get hx
    have hidy : y.id = data.recipientWalletId := Table.key_of_get hy
    refine ⟨⟨x, y, hidx, hu, hc, hidy, hc', hne, rfl⟩, ?_, ?_⟩
    · rintro _ ⟨⟩
      rw [hidx]
      exact ⟨hx, hfunds⟩
    · rintro _ ⟨⟩
      rw [hidy]
      exact hy

/-- There is only one it can make. -/
theorem Request.Admits.unique {t : Request} (h : t.Admits db mv)
    (h' : t.Admits db mv') : mv = mv' := by
  cases t with
  | deposit w u data =>
      obtain ⟨x, hx, -, -, rfl⟩ := admits_deposit.mp h
      obtain ⟨x', hx', -, -, rfl⟩ := admits_deposit.mp h'
      rw [hx] at hx'
      cases hx'
      rfl
  | transfer w u data key =>
      obtain ⟨-, x, y, hx, -, hy, -, -, -, rfl⟩ := admits_transfer.mp h
      obtain ⟨-, x', y', hx', -, hy', -, -, -, rfl⟩ := admits_transfer.mp h'
      rw [hx] at hx'
      rw [hy] at hy'
      cases hx'
      cases hy'
      rfl
  | withdraw w u data key =>
      obtain ⟨x, hx, -, -, -, rfl⟩ := admits_withdraw.mp h
      obtain ⟨x', hx', -, -, -, rfl⟩ := admits_withdraw.mp h'
      rw [hx] at hx'
      cases hx'
      rfl
  | _ => exact absurd h.moves (by simp [Request.Moves])

theorem Request.Moves.amount_pos {t : Request} (h : t.Moves mv) : 0 < mv.amount := by
  cases t with
  | deposit w u data =>
      obtain ⟨x, -, -, -, rfl⟩ := h
      exact data.amount_pos
  | transfer w u data key =>
      obtain ⟨x, y, -, -, -, -, -, -, rfl⟩ := h
      exact data.amount_pos
  | withdraw w u data key =>
      obtain ⟨x, -, -, -, rfl⟩ := h
      exact data.amount_pos
  | _ => exact absurd h (by simp [Request.Moves])

/-- The currency is that of a wallet. -/
theorem Request.Admits.currency_length {t : Request} (h : t.Admits db mv) (hcol : db.InColumns) :
    mv.currency.length ≤ 3 := by
  cases t with
  | deposit w u data =>
      obtain ⟨x, hx, -, -, rfl⟩ := admits_deposit.mp h
      exact (hcol.get hx).1
  | transfer w u data key =>
      obtain ⟨-, x, y, hx, -, -, -, -, -, rfl⟩ := admits_transfer.mp h
      exact (hcol.get hx).1
  | withdraw w u data key =>
      obtain ⟨x, hx, -, -, -, rfl⟩ := admits_withdraw.mp h
      exact (hcol.get hx).1
  | _ => exact absurd h.moves (by simp [Request.Moves])

end admits

/-! ## Keys -/

/-- The header can be stored under the key of its request. -/
def Db.Accepts (db : Db) (key : Option String) : Prop :=
  ∀ k ∈ key, k.length ≤ 255 ∧ db.transactionByKey k = none

/-- Both wallets of a transfer are the same. -/
def Request.isSelfTransfer : Request → Bool
  | .transfer w _ data _ => decide (w = data.recipientWalletId)
  | _ => false

/-- The key is stored but is never looked up: its request gets as far as its INSERT. -/
def Request.Clashes (t : Request) (db : Db) : Prop :=
  t.key = some "" ∧ (db.transactionByKey "").isSome = true ∧ ∃ mv, t.Admits db mv

/-- The key is stored and is looked up, but the wallet to report does not exist. -/
def Request.Orphaned (t : Request) (db : Db) : Prop :=
  t.isSelfTransfer = false ∧ (∃ k, t.key = some k ∧ k ≠ "" ∧ (db.transactionByKey k).isSome = true)
    ∧ db.wallets.get t.path = none

/-! ## Integers -/

/-- The integers a statement stores in `BIGINT` columns. -/
def Stmt.integers : Stmt → List Int
  | .insertEntry _ _ amount _ _ _ => [amount]
  | .updateBalance _ balance => [balance]
  | .insertStat _ _ count total | .updateStat _ _ count total => [count, total]
  | _ => []

/-- They fit. -/
def Stmt.InRange (q : Stmt) : Prop := ∀ n ∈ q.integers, fitsBigint n = true

namespace Movement

/-- The integers a movement stores: its amount and the new balances. -/
def integers (mv : Movement) : List Int := mv.amount :: mv.dirty.map Wallet.availableBalance

/-- The wallet that receives the money can hold it. -/
def HasRoom (mv : Movement) : Prop :=
  ∀ w, mv.target = .wallet w → w.availableBalance + mv.amount < 2 ^ 63

variable {mv : Movement} {db : Db}

omit [Runtime] in
/-- The rows that are to be updated are there. -/
theorem Backed.dirty (h : mv.Backed db) : ∀ w ∈ mv.dirty, (db.wallets.get w.id).isSome = true := by
  intro w hw
  rcases mem_dirty.mp hw with ⟨v, hs, rfl⟩ | ⟨v, ht, rfl⟩
  · exact Option.isSome_iff_exists.mpr ⟨v, (h.source v hs).1⟩
  · exact Option.isSome_iff_exists.mpr ⟨v, h.target v ht⟩

omit [Runtime] in
theorem Backed.wallets (h : mv.Backed db) : ∀ w ∈ mv.wallets, db.wallets.get w.id = some w := by
  intro w hw
  rcases mem_wallets.mp hw with hs | ht
  · exact (h.source w hs).1
  · exact h.target w ht

omit [Runtime] in
/-- Nothing becomes negative. -/
theorem Backed.nonneg (h : mv.Backed db) (hdb : db.InColumns) (hpos : 0 < mv.amount) :
    ∀ w ∈ mv.dirty, 0 ≤ w.availableBalance := by
  intro w hw
  rcases mem_dirty.mp hw with ⟨v, hs, rfl⟩ | ⟨v, ht, rfl⟩
  · have hfunds := (h.source v hs).2
    show 0 ≤ v.availableBalance + -mv.amount
    omega
  · have hcol := checkBalance_eq_none.mp (hdb.get (h.target v ht)).2
    show 0 ≤ v.availableBalance + mv.amount
    omega

omit [Runtime] in
/-- **A movement fits its columns if and only if its target has room.** What leaves a wallet was in
it, and an amount that has room fits. -/
theorem Backed.hasRoom_iff (h : mv.Backed db) (hs : mv.Shaped) (hdb : db.InColumns)
    (hpos : 0 < mv.amount) : mv.HasRoom ↔ ∀ n ∈ mv.integers, fitsBigint n = true := by
  have hfits : ∀ {n : Int}, 0 ≤ n → (fitsBigint n = true ↔ n < 2 ^ 63) := by
    intro n hn
    simp only [fitsBigint, Bool.and_eq_true, decide_eq_true_eq]
    omega
  have hnonneg := h.nonneg hdb hpos
  have hsource : ∀ w, mv.source = .wallet w → w.availableBalance < 2 ^ 63
      ∧ mv.amount ≤ w.availableBalance :=
    fun w hw => ⟨(checkBalance_eq_none.mp (hdb.get (h.source w hw).1).2).2, (h.source w hw).2⟩
  have htarget : ∀ w, mv.target = .wallet w → 0 ≤ w.availableBalance :=
    fun w hw => (checkBalance_eq_none.mp (hdb.get (h.target w hw)).2).1
  constructor
  · intro hroom n hn
    rcases List.mem_cons.mp hn with rfl | hn
    · rw [hfits (by omega)]
      -- one of the sides is a wallet
      cases ht : mv.target with
      | wallet w =>
          have hlt := hroom w ht
          have hge := htarget w ht
          omega
      | funding =>
          cases hsrc : mv.source with
          | wallet w =>
              obtain ⟨hlt, hle⟩ := hsource w hsrc
              omega
          | funding =>
              unfold Shaped at hs
              rw [hsrc, ht] at hs
              cases htype : mv.type <;> simp [htype] at hs
    · obtain ⟨w, hw, rfl⟩ := List.mem_map.mp hn
      rw [hfits (hnonneg w hw)]
      rcases mem_dirty.mp hw with ⟨v, hsrc, rfl⟩ | ⟨v, ht, rfl⟩
      · have hlt := (hsource v hsrc).1
        show v.availableBalance + -mv.amount < 2 ^ 63
        omega
      · exact hroom v ht
  · intro hall w ht
    have hmem : ({ w with availableBalance := w.availableBalance + mv.amount } :
        Wallet) ∈ mv.dirty :=
      mem_dirty.mpr (.inr ⟨w, ht, rfl⟩)
    have hfit := hall _ (List.mem_cons_of_mem _ (List.mem_map_of_mem hmem))
    exact (hfits (hnonneg _ hmem)).mp hfit

end Movement

end WalletLedger
