import Mathlib.Data.List.Induction
import Mathlib.Data.List.Sort
import WalletLedger.Proof.Effects

/-!
# Statements of account

A wallet's legs in ascending `seq` are a running balance. `seq` is drawn when a leg
is inserted, not when its transaction commits, so over all wallets the numbers and
the commits are in different orders. On one wallet they agree: the leg is inserted
under the wallet's lock, which is held until the commit (`Settled.sorted`).

The legs of a wallet are appended commit by commit, at most one each time. So what
has to be carried through a history is only which commit posted which leg.
-/

namespace WalletLedger

open Isolation

variable [Runtime]

/-- The legs of a wallet in ascending `seq`. -/
def Db.statement (db : Db) (walletId : Uuid) : List LedgerEntry :=
  (db.entriesOfWallet walletId).insertionSort (fun a b => a.seq ≤ b.seq)

/-- The database after the first `n` commits of a history. -/
def after (cs : List LedgerCommit) (n : Nat) : Db :=
  Db.empty.applyAll ((cs.take n).flatMap Commit.writes)

/-- The legs `es` of a wallet are a running balance, the `n`-th of them posted by the
commit number `posts[n]`. -/
structure Running (cs : List LedgerCommit) (id : Uuid) (es : List LedgerEntry) (posts : List Nat) :
    Prop where
  length : posts.length = es.length
  order : posts.Pairwise (· < ·)
  /-- A leg is committed with the transaction it belongs to. -/
  posted : ∀ (n j : Nat) (e : LedgerEntry), posts[n]? = some j → es[n]? = some e →
    ∃ c : LedgerCommit, cs[j]? = some c ∧ .insertEntry e ∈ c.writes
      ∧ ∃ t : Transaction, .insertTransaction t ∈ c.writes ∧ t.id = e.transactionId
  /-- The wallet's balance right after that commit is the sum so far. -/
  balance : ∀ (n j : Nat), posts[n]? = some j → ∃ x, (after cs (j + 1)).wallets.get id = some x
    ∧ x.availableBalance = ((es.take (n + 1)).map LedgerEntry.signedAmount).sum
    ∧ 0 ≤ x.availableBalance

section running

variable {cs : List LedgerCommit} {c : LedgerCommit} {id : Uuid} {es : List LedgerEntry}
  {posts : List Nat}

omit [Runtime] in
theorem after_append {n : Nat} (hn : n ≤ cs.length) : after (cs ++ [c]) n = after cs n := by
  rw [after, after, List.take_append_of_le_length hn]

omit [Runtime] in
theorem Running.lt_length (h : Running cs id es posts) {n j : Nat} (hj : posts[n]? = some j) :
    j < cs.length := by
  obtain ⟨hn, -⟩ := List.getElem?_eq_some_iff.mp hj
  have hn' : n < es.length := h.length ▸ hn
  have he : es[n]? = some es[n] := List.getElem?_eq_getElem hn'
  obtain ⟨c, hc, -⟩ := h.posted n j _ hj he
  exact (List.getElem?_eq_some_iff.mp hc).1

omit [Runtime] in
/-- A commit that posts nothing to the wallet. -/
theorem Running.keep (h : Running cs id es posts) : Running (cs ++ [c]) id es posts where
  length := h.length
  order := h.order
  posted := by
    intro n j e hj he
    obtain ⟨c', hc', hrest⟩ := h.posted n j e hj he
    exact ⟨c', by rw [List.getElem?_append_left (h.lt_length hj)]; exact hc', hrest⟩
  balance := by
    intro n j hj
    rw [after_append (h.lt_length hj)]
    exact h.balance n j hj

omit [Runtime] in
/-- A commit that posts a leg to it. -/
theorem Running.post (h : Running cs id es posts) {e : LedgerEntry} {x : Wallet}
    (he : .insertEntry e ∈ c.writes)
    (ht : ∃ t : Transaction, .insertTransaction t ∈ c.writes ∧ t.id = e.transactionId)
    (hx : (after (cs ++ [c]) (cs.length + 1)).wallets.get id = some x)
    (hsum : x.availableBalance = ((es ++ [e]).map LedgerEntry.signedAmount).sum)
    (hpos : 0 ≤ x.availableBalance) :
    Running (cs ++ [c]) id (es ++ [e]) (posts ++ [cs.length]) where
  length := by simp [h.length]
  order := by
    refine List.pairwise_append.mpr ⟨h.order, by simp, fun j hj j' hj' => ?_⟩
    obtain ⟨n, hn⟩ := List.getElem?_of_mem hj
    rw [List.mem_singleton.mp hj']
    exact h.lt_length hn
  posted := by
    intro n j e' hj he'
    by_cases hn : n < posts.length
    · rw [List.getElem?_append_left hn] at hj
      rw [List.getElem?_append_left (h.length ▸ hn)] at he'
      exact h.keep.posted n j e' hj he'
    · rw [List.getElem?_append_right (Nat.not_lt.mp hn)] at hj
      rw [List.getElem?_append_right (h.length ▸ Nat.not_lt.mp hn)] at he'
      simp only [List.getElem?_singleton, Option.ite_none_right_eq_some,
        Option.some.injEq] at hj he'
      obtain ⟨-, rfl⟩ := hj
      obtain ⟨-, rfl⟩ := he'
      exact ⟨c, by simp, he, ht⟩
  balance := by
    intro n j hj
    by_cases hn : n < posts.length
    · rw [List.getElem?_append_left hn] at hj
      rw [List.take_append_of_le_length (h.length ▸ hn)]
      exact h.keep.balance n j hj
    · rw [List.getElem?_append_right (Nat.not_lt.mp hn)] at hj
      simp only [List.getElem?_singleton, Option.ite_none_right_eq_some, Option.some.injEq] at hj
      obtain ⟨hlen, rfl⟩ := hj
      have hall : (es ++ [e]).take (n + 1) = es ++ [e] :=
        List.take_of_length_le
          (by rw [List.length_append, List.length_singleton, ← h.length]; omega)
      rw [hall]
      exact ⟨x, hx, hsum, hpos⟩

end running

/-! ## What a commit posts -/

omit [Runtime] in
/-- A movement posts at most one leg to a wallet. -/
theorem entriesOfWallet_posted {mv : Movement} {m : Minted} {db db' : Db} (hs : mv.Shaped)
    (hp : Posted mv m db db') (id : Uuid) :
    db'.entriesOfWallet id = db.entriesOfWallet id
    ∨ ∃ e ∈ mv.legs m, e.walletId = some id
        ∧ db'.entriesOfWallet id = db.entriesOfWallet id ++ [e] := by
  have happ : db'.entriesOfWallet id = db.entriesOfWallet id
      ++ (mv.legs m).filter (fun e => decide (e.walletId = some id)) := by
    rw [Db.entriesOfWallet, hp.entries, List.filter_append, Db.entriesOfWallet]
  -- the two legs are never on the same wallet
  have hapart : ¬(mv.source.walletId = some id ∧ mv.target.walletId = some id) := by
    rintro ⟨h₁, h₂⟩
    unfold Movement.Shaped at hs
    cases ht : mv.type with
    | deposit => rw [ht] at hs; rw [hs.1] at h₁; exact absurd h₁ (by simp [Side.walletId])
    | withdrawal => rw [ht] at hs; rw [hs.2] at h₂; exact absurd h₂ (by simp [Side.walletId])
    | transfer =>
        rw [ht] at hs
        obtain ⟨x, y, hx, hy, hne⟩ := hs
        rw [hx] at h₁
        rw [hy] at h₂
        exact hne ((Option.some.inj h₁).trans (Option.some.inj h₂).symm)
  have hd : (mv.debit m).walletId = mv.source.walletId := rfl
  have hc : (mv.credit m).walletId = mv.target.walletId := rfl
  rw [happ]
  by_cases h₁ : mv.source.walletId = some id
  · have h₂ : mv.target.walletId ≠ some id := fun h₂ => hapart ⟨h₁, h₂⟩
    refine .inr ⟨mv.debit m, mem_legs.mpr (.inl rfl), h₁, ?_⟩
    unfold Movement.legs
    cases mv.type <;> simp [hd, hc, h₁, h₂]
  · by_cases h₂ : mv.target.walletId = some id
    · refine .inr ⟨mv.credit m, mem_legs.mpr (.inr rfl), h₂, ?_⟩
      unfold Movement.legs
      cases mv.type <;> simp [hd, hc, h₁, h₂]
    · refine .inl ?_
      unfold Movement.legs
      cases mv.type <;> simp [hd, hc, h₁, h₂]

omit [Runtime] in
/-- A leg belongs to the transaction it is written with. -/
theorem Movement.writes_leg {mv : Movement} {m : Minted} {e : LedgerEntry} (he : e ∈ mv.legs m) :
    .insertEntry e ∈ mv.writes m
      ∧ ∃ t : Transaction, .insertTransaction t ∈ mv.writes m ∧ t.id = e.transactionId := by
  refine ⟨by simp [Movement.writes, he], mv.header m, by simp [Movement.writes], ?_⟩
  rcases mem_legs.mp he with rfl | rfl
  · rfl
  · rfl

omit [Runtime] in
theorem Movement.Ok.row {mv : Movement} {m : Minted} {db : Db} (hok : mv.Ok db) {e : LedgerEntry}
    (he : e ∈ mv.legs m) {id : Uuid} (hid : e.walletId = some id) :
    ∃ v, db.wallets.get id = some v := by
  rcases mem_legs.mp he with rfl | rfl
  · cases hw : mv.source with
    | funding => exact absurd hid (by simp [Movement.debit, hw, Side.walletId])
    | wallet v =>
        have hv : v.id = id := by simpa [Movement.debit, hw, Side.walletId] using hid
        exact ⟨v, hv ▸ (hok.source v hw).1⟩
  · cases hw : mv.target with
    | funding => exact absurd hid (by simp [Movement.credit, hw, Side.walletId])
    | wallet v =>
        have hv : v.id = id := by simpa [Movement.credit, hw, Side.walletId] using hid
        exact ⟨v, hv ▸ (hok.target v hw).1⟩

/-- **The legs of a wallet are a running balance of its history.** -/
theorem Chain.running {cs : List LedgerCommit} {db : Db} (h : Chain .empty cs db) (id : Uuid) :
    ∃ posts, Running cs id (db.entriesOfWallet id) posts := by
  induction cs using List.reverseRecOn generalizing db with
  | nil =>
      cases h
      exact ⟨[], rfl, .nil, by simp, by simp⟩
  | append_singleton cs c ih =>
      obtain ⟨d, hd, hlast⟩ := h.split
      obtain ⟨posts, hrun⟩ := ih hd
      have hbooks : Books db := Chain.books h books_empty
      have hdb : db = after (cs ++ [c]) (cs.length + 1) := by
        rw [after, List.take_of_length_le (by simp)]
        exact h.eq
      cases hlast with
      | cons hl hnil =>
      cases hnil
      have hkeep : (d.applyAll c.writes).ledgerEntries = d.ledgerEntries →
          ∃ posts, Running (cs ++ [c]) id ((d.applyAll c.writes).entriesOfWallet id) posts := by
        intro he
        rw [Db.entriesOfWallet, he]
        exact ⟨posts, hrun.keep⟩
      rcases hl.cases with ⟨u, -, hw⟩ | ⟨x, -, -, hw⟩ | ⟨mv, m, -, hok, hu, hw⟩ | hw
      · exact hkeep (by rw [hw]; rfl)
      · exact hkeep (by rw [hw]; rfl)
      · have hp := Movement.posted hok.shaped hu
        rw [← hw] at hp
        rcases entriesOfWallet_posted hok.shaped hp id with hsame | ⟨e, he, hid, hnew⟩
        · rw [hsame]
          exact ⟨posts, hrun.keep⟩
        · obtain ⟨v, hv⟩ := hok.row he hid
          obtain ⟨x, hx, -⟩ := wallets_posted hp hv
          obtain ⟨hsum, hpos⟩ := hbooks.balanced.signed hx
          obtain ⟨hmem, ht⟩ := Movement.writes_leg he
          rw [← hw] at hmem ht
          rw [hnew] at hsum
          rw [hdb] at hx
          exact ⟨_, hnew ▸ hrun.post hmem ht hx hsum hpos⟩
      · exact hkeep (sameBooks_applyAll d hw).entries

/-- On one wallet the numbers follow the commits. -/
theorem Settled.ascending {s : LedgerStore} (h : Settled .empty s) (id : Uuid) :
    (s.db.entriesOfWallet id).Pairwise (fun a b => a.seq < b.seq) := by
  obtain ⟨posts, hrun⟩ := h.history.running id
  rw [List.pairwise_iff_getElem]
  intro m n hm hn hmn
  have hwallet : ∀ e ∈ s.db.entriesOfWallet id, e.walletId = some id := by
    intro e he
    simpa [Db.entriesOfWallet] using (List.mem_filter.mp he).2
  have hm' : m < posts.length := hrun.length ▸ hm
  have hn' : n < posts.length := hrun.length ▸ hn
  -- both legs were posted by commits, in this order
  obtain ⟨c, hc, he, -⟩ := hrun.posted m posts[m] _
    (List.getElem?_eq_getElem hm') (List.getElem?_eq_getElem hm)
  obtain ⟨c', hc', he', -⟩ := hrun.posted n posts[n] _
    (List.getElem?_eq_getElem hn') (List.getElem?_eq_getElem hn)
  have horder : posts[m] < posts[n] :=
    List.pairwise_iff_getElem.mp hrun.order m n _ _ hmn
  obtain ⟨hj, rfl⟩ := List.getElem?_eq_some_iff.mp hc
  obtain ⟨hj', rfl⟩ := List.getElem?_eq_some_iff.mp hc'
  exact List.pairwise_iff_getElem.mp h.sorted _ _ hj hj' horder _ _ id he he'
    (hwallet _ (List.getElem_mem hm)) (hwallet _ (List.getElem_mem hn))

/-- **The statement of every wallet is in commit order and a running balance that is
never negative.** -/
theorem reachable_statement (w : LedgerWorld) (h : ReachableFrom .empty w) (id : Uuid) :
    (w.store.db.statement id).Pairwise (fun a b => a.seq < b.seq)
    ∧ ∃ posts, Running w.store.commits id (w.store.db.statement id) posts := by
  have hset := reachable_settled h
  have hasc := hset.ascending id
  have heq : w.store.db.statement id = w.store.db.entriesOfWallet id :=
    List.Pairwise.insertionSort_eq (hasc.imp Nat.le_of_lt)
  rw [heq]
  exact ⟨hasc, hset.history.running id⟩

/-- The opening, and a withdrawal. -/
def payOut : List LedgerAction :=
  opening ++ [.spawn (.withdraw 31 12 (withdrawalOf 30) none)] ++ advance 5 14 60

omit [Runtime] in
theorem payOut_statement : ∃ w, (@ReachableFrom plainRuntime .empty w
    ∧ (w.store.db.statement 31).map LedgerEntry.signedAmount = [100, -30])
    ∧ (w.store.db.statement 31).Pairwise (fun a b => a.seq < b.seq)
    ∧ ∃ posts, Running w.store.commits 31 (w.store.db.statement 31) posts := by
  obtain ⟨w, hr, hw⟩ := exists_runPlain .empty payOut
    (fun w => (w.store.db.statement 31).map LedgerEntry.signedAmount) (v := [100, -30])
    (by decide +kernel)
  exact ⟨w, ⟨hr, hw⟩, @reachable_statement plainRuntime w hr 31⟩

end WalletLedger
