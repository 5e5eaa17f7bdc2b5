import WalletLedger.Proof.Session

/-!
# Booking a movement

The three money operations differ in their checks and share their tail: header,
two legs, balances, status, event. `book` is that tail for any movement, and
`deposit`, `transfer` and `withdraw` are seen to be their checks followed by
`book` by unfolding (`Proof/Operations.lean`).

`triple_book` executes it once: at the end the session has buffered exactly the
movement's write set, and holds a lock on everything in it.
-/

namespace WalletLedger

open Isolation Prog

/-- The wallets on a side. -/
def Side.wallets : Side → List Wallet
  | .wallet w => [w]
  | .funding => []

namespace Movement

/-- The wallets of a movement. -/
def wallets (mv : Movement) : List Wallet := mv.source.wallets ++ mv.target.wallets

/-- The leg that is inserted first. -/
def first (mv : Movement) : EntryType × Side :=
  match mv.type with
  | .deposit => (.credit, mv.target)
  | _ => (.debit, mv.source)

/-- The leg that is inserted second. -/
def second (mv : Movement) : EntryType × Side :=
  match mv.type with
  | .deposit => (.debit, mv.source)
  | _ => (.credit, mv.target)

end Movement

theorem Movement.mem_wallets {mv : Movement} {w : Wallet} :
    w ∈ mv.wallets ↔ mv.source = .wallet w ∨ mv.target = .wallet w := by
  have hside : ∀ s : Side, w ∈ s.wallets ↔ s = .wallet w := by
    intro s
    cases s with
    | wallet v => simp [Side.wallets, eq_comm]
    | funding => simp [Side.wallets]
  rw [Movement.wallets, List.mem_append, hside, hside]

theorem Movement.legs_wallets (mv : Movement) :
    mv.first.2.wallets ⊆ mv.wallets ∧ mv.second.2.wallets ⊆ mv.wallets := by
  unfold Movement.first Movement.second Movement.wallets
  cases mv.type with
  | deposit => exact ⟨List.subset_append_right _ _, List.subset_append_left _ _⟩
  | transfer => exact ⟨List.subset_append_left _ _, List.subset_append_right _ _⟩
  | withdrawal => exact ⟨List.subset_append_left _ _, List.subset_append_right _ _⟩

/-- Insert one leg. -/
def bookLeg (mv : Movement) (txn : Transaction) (leg : EntryType × Side) : Tx LedgerEntry :=
  LedgerRepository.createEntry txn.id leg.1 mv.amount mv.currency leg.2.walletId leg.2.systemAccount

/-- The common tail of the money operations, up to the commit. -/
def book {β : Type} (mv : Movement) (k : Transaction → Tx β) : Tx β := do
  let txn ← TransactionRepository.create mv.type mv.currency mv.key
  let _ ← bookLeg mv txn mv.first
  let _ ← bookLeg mv txn mv.second
  let txn ← TransactionRepository.markCompleted mv.dirty txn
  LedgerService.recordEvent txn mv.amount mv.subject mv.counterparty
  k txn

/-! ## What it draws -/

/-- What was drawn, from the rows that came back. -/
def Minted.ofRows (type : TransactionType) (txn : Uuid) (e₁ e₂ : LedgerEntry) (event : Uuid)
    (eventAt occurredAt : Time) (updatedAt : Uuid → Time) : Minted :=
  match type with
  | .deposit => ⟨txn, e₂.id, e₂.seq, e₂.createdAt, e₁.id, e₁.seq, e₁.createdAt, event, eventAt,
      occurredAt, updatedAt⟩
  | _ => ⟨txn, e₁.id, e₁.seq, e₁.createdAt, e₂.id, e₂.seq, e₂.createdAt, event, eventAt,
      occurredAt, updatedAt⟩

/-- The keys a movement needs to be free. -/
def Movement.keys (mv : Movement) (m : Minted) : List Res :=
  [.transaction m.txn, .entry m.debit, .entry m.credit, .event m.event]
    ++ mv.key.toList.map .idempotencyKey

section ofRows

variable {type : TransactionType} {txn event : Uuid} {e₁ e₂ : LedgerEntry}
  {eventAt occurredAt : Time} {now : Uuid → Time}

@[simp] theorem ofRows_txn :
    (Minted.ofRows type txn e₁ e₂ event eventAt occurredAt now).txn = txn := by
  cases type <;> rfl

@[simp] theorem ofRows_event :
    (Minted.ofRows type txn e₁ e₂ event eventAt occurredAt now).event = event := by
  cases type <;> rfl

@[simp] theorem ofRows_eventAt :
    (Minted.ofRows type txn e₁ e₂ event eventAt occurredAt now).eventAt = eventAt := by
  cases type <;> rfl

@[simp] theorem ofRows_occurredAt :
    (Minted.ofRows type txn e₁ e₂ event eventAt occurredAt now).occurredAt = occurredAt := by
  cases type <;> rfl

@[simp] theorem ofRows_updatedAt :
    (Minted.ofRows type txn e₁ e₂ event eventAt occurredAt now).updatedAt = now := by
  cases type <;> rfl

/-- The two legs' ids, in one order or the other. -/
theorem ofRows_legs :
    ((Minted.ofRows type txn e₁ e₂ event eventAt occurredAt now).debit = e₁.id
      ∧ (Minted.ofRows type txn e₁ e₂ event eventAt occurredAt now).credit = e₂.id)
    ∨ ((Minted.ofRows type txn e₁ e₂ event eventAt occurredAt now).debit = e₂.id
      ∧ (Minted.ofRows type txn e₁ e₂ event eventAt occurredAt now).credit = e₁.id) := by
  cases type with
  | deposit => exact .inr ⟨rfl, rfl⟩
  | transfer => exact .inl ⟨rfl, rfl⟩
  | withdrawal => exact .inl ⟨rfl, rfl⟩

end ofRows

/-- The rows that came back are the legs of the movement, in order. -/
theorem legs_ofRows {mv : Movement} {txn : Transaction} {e₁ e₂ : LedgerEntry} {event : Uuid}
    {eventAt occurredAt : Time} {now : Uuid → Time}
    (h₁ : e₁ = ⟨e₁.id, e₁.seq, txn.id, mv.first.1, mv.amount, mv.currency, mv.first.2.walletId,
      mv.first.2.systemAccount, e₁.createdAt⟩)
    (h₂ : e₂ = ⟨e₂.id, e₂.seq, txn.id, mv.second.1, mv.amount, mv.currency, mv.second.2.walletId,
      mv.second.2.systemAccount, e₂.createdAt⟩) :
    mv.legs (.ofRows mv.type txn.id e₁ e₂ event eventAt occurredAt now) = [e₁, e₂] := by
  rw [h₁, h₂]
  unfold Movement.first Movement.second Movement.legs
  cases mv.type <;> rfl

/-- The write set, statement by statement. -/
theorem writes_ofRows (mv : Movement) (txn : Transaction) (e₁ e₂ : LedgerEntry) {event : Uuid}
    {eventAt occurredAt : Time} {now : Uuid → Time}
    (ht : txn = ⟨txn.id, mv.type, .pending, mv.currency, mv.key⟩)
    (h₁ : e₁ = ⟨e₁.id, e₁.seq, txn.id, mv.first.1, mv.amount, mv.currency, mv.first.2.walletId,
      mv.first.2.systemAccount, e₁.createdAt⟩)
    (h₂ : e₂ = ⟨e₂.id, e₂.seq, txn.id, mv.second.1, mv.amount, mv.currency, mv.second.2.walletId,
      mv.second.2.systemAccount, e₂.createdAt⟩) :
    mv.writes (.ofRows mv.type txn.id e₁ e₂ event eventAt occurredAt now)
      = [.insertTransaction txn] ++ [.insertEntry e₁] ++ [.insertEntry e₂]
        ++ [.setStatus txn.id .completed]
        ++ (TransactionRepository.inKeyOrder mv.dirty).map
            (fun w => .setBalance w.id w.availableBalance (now w.id))
        ++ [.insertEvent ⟨event, "transaction", txn.id, "transaction.completed",
            ⟨txn.id, txn.type.value, TransactionStatus.completed.value, txn.currency, mv.amount,
              mv.subject, mv.counterparty, occurredAt⟩, eventAt, none⟩] := by
  have htype : txn.type = mv.type := by rw [ht]
  have hcur : txn.currency = mv.currency := by rw [ht]
  rw [Movement.writes, legs_ofRows h₁ h₂, htype, hcur]
  simp [Movement.header, Movement.balances, Movement.event, ← ht]

/-- The keys a movement needs are those its INSERTs have locked. -/
theorem keys_ofRows {mv : Movement} {txn : Transaction} {e₁ e₂ : LedgerEntry} {event : Uuid}
    {eventAt occurredAt : Time} {now : Uuid → Time}
    (ht : txn = ⟨txn.id, mv.type, .pending, mv.currency, mv.key⟩) :
    mv.keys (.ofRows mv.type txn.id e₁ e₂ event eventAt occurredAt now)
      ⊆ .event event :: .entry e₂.id :: .entry e₁.id
        :: ((Write.insertTransaction txn).footprint ++ []) := by
  have hkey : txn.idempotencyKey = mv.key := by rw [ht]
  intro r hr
  simp only [Movement.keys, ofRows_txn, ofRows_event, List.mem_append, List.mem_cons,
    List.not_mem_nil, or_false] at hr
  simp only [Write.footprint, hkey, List.append_nil, List.mem_cons]
  rcases hr with (rfl | rfl | rfl | rfl) | hr
  · simp
  · rcases ofRows_legs with ⟨hd, -⟩ | ⟨hd, -⟩
    · rw [hd]; simp
    · rw [hd]; simp
  · rcases ofRows_legs with ⟨-, hc⟩ | ⟨-, hc⟩
    · rw [hc]; simp
    · rw [hc]; simp
  · simp
  · exact .inr (.inr (.inr (.inr hr)))

/-! ## Its statements -/

section

variable {db : Db} {ws : List Write}

/-- A key brought by a buffered row is not free in the session's view. -/
theorem entry_ne {id : Uuid} (h : (Res.entry id).Absent (db.applyAll ws)) {e : LedgerEntry}
    (he : .insertEntry e ∈ ws) : e.id ≠ id := by
  rintro rfl
  obtain ⟨pre, post, rfl⟩ := List.append_of_mem he
  rw [Db.applyAll_append, Db.applyAll_cons] at h
  have h' : ((db.applyAll pre).ledgerEntries.insert e).get e.id = none := h.of_applyAll
  rw [Table.get_insert_self (Table.get_of_insert_none h')] at h'
  exact absurd h' (by simp)

theorem checkTransaction_none {t : Transaction} (h : checkTransaction t = none) :
    t.currency.length ≤ 3 ∧ ∀ k ∈ t.idempotencyKey, k.length ≤ 255 := by
  unfold checkTransaction firstError firstError firstError at h
  by_cases hc : t.currency.length ≤ 3
  · exact ⟨hc, by simpa [hc] using h⟩
  · exact absurd h (by simp [hc])

theorem checkEntry_amount {e : LedgerEntry} (h : checkEntry db e = none) :
    fitsBigint e.amount = true := by
  unfold checkEntry firstError at h
  cases hf : fitsBigint e.amount with
  | true => rfl
  | false => rw [hf] at h; exact absurd h (by simp)

end

variable [Runtime] {db₀ : Db} {i : Sid} {t : Request} {key : Option String} {ws : List Write}
  {wals : List Wallet} {frees : List Res} {β : Type}

/-- The header is inserted and read back. -/
theorem triple_create {type : TransactionType} {currency : String} {k : Option String} :
    Triple engine (contract db₀) i t (Mid i key [] wals frees)
      (TransactionRepository.create type currency k)
      (Ends (fun txn s => (txn = ⟨txn.id, type, .pending, currency, k⟩
          ∧ checkTransaction txn = none)
        ∧ Mid i key [.insertTransaction txn] wals
          ((Write.insertTransaction txn).footprint ++ frees) s)
        (Missed i key)) := by
  have hst : ∀ txn : Transaction, Stable engine (contract db₀) i (fun s =>
      (txn = ⟨txn.id, type, .pending, currency, k⟩ ∧ checkTransaction txn = none)
        ∧ Mid i key [.insertTransaction txn] wals
          ((Write.insertTransaction txn).footprint ++ frees) s) :=
    fun txn => .and (.const _) Mid.stable
  refine triple_next Ends.lenient (Mid.inserts (fun _ _ _ => rfl) ?_ trivial (by simp) hst
    ?_) (fun txn => ?_)
  · intro inp db o htaken r hr
    simp only [Bool.or_eq_false_iff, Option.isSome_eq_false_iff, Option.isNone_iff_eq_none,
      List.any_eq_false, List.mem_cons, List.mem_map] at htaken hr
    rcases hr with rfl | ⟨k', hk', rfl⟩
    · exact htaken.1
    · simpa [Res.Absent] using htaken.2 k' hk'
  · intro s inp o hcheck _ hm
    exact ⟨⟨rfl, hcheck⟩, hm⟩
  · intro s hi h
    obtain ⟨hshape, hm⟩ := h
    refine Mid.triple (q := .refreshTransaction txn.id) trivial (by simp) hst ?_ s hi hm
    intro s s' inp e a hm he ha hdb hs _
    cases he
    obtain ⟨hrow, he⟩ := refreshes_ok ha
    have habs : s.db.transactions.get txn.id = none :=
      (hm.frees (.transaction txn.id) (by simp [Write.footprint])).2
    have hself : (s.db.applyAll [.insertTransaction txn]).transactions.get txn.id = some txn :=
      Table.get_insert_self habs
    rw [hself] at hrow
    cases hrow
    rw [he] at hs
    exact ⟨hshape, (hs rfl).1⟩

/-- One leg, on a wallet the session holds or on the outside. -/
theorem triple_bookLeg {mv : Movement} {txn : Transaction} {leg : EntryType × Side}
    (hleg : leg.2.wallets ⊆ wals) :
    Triple engine (contract db₀) i t (Mid i key ws wals frees) (bookLeg mv txn leg)
      (Ends (fun e s => (e = ⟨e.id, e.seq, txn.id, leg.1, mv.amount, mv.currency, leg.2.walletId,
            leg.2.systemAccount, e.createdAt⟩
          ∧ fitsBigint mv.amount = true ∧ ∀ e', .insertEntry e' ∈ ws → e'.id ≠ e.id)
        ∧ Mid i key (ws ++ [.insertEntry e]) wals (.entry e.id :: frees) s) (Missed i key)) := by
  have hin : (Stmt.insertEntry txn.id leg.1 mv.amount mv.currency leg.2.walletId
      leg.2.systemAccount).Inside wals := by
    intro id hid
    cases hs : leg.2 with
    | funding => rw [hs] at hid; exact absurd hid (by simp [Side.walletId])
    | wallet w =>
        rw [hs] at hid hleg
        exact ⟨w, hleg (by simp [Side.wallets]), by simpa [Side.walletId] using hid⟩
  refine Mid.inserts (fun _ _ _ => rfl) ?_ hin (by simp)
    (fun e => .and (.const _) Mid.stable) ?_
  · intro inp db o htaken r hr
    rw [List.mem_singleton.mp hr]
    simpa [Res.Absent] using htaken
  · intro s inp o hcheck htaken hm
    have habs : (Res.entry inp.uuid).Absent (s.db.applyAll ws) := by
      simpa [Res.Absent] using htaken
    exact ⟨⟨rfl, checkEntry_amount hcheck, fun e' he' => entry_ne habs he'⟩, hm⟩

/-- The balance updates of a flush. -/
theorem triple_flushWallets {dirty : List Wallet} (hnd : (dirty.map Wallet.id).Nodup) :
    Triple engine (contract db₀) i t (Mid i key ws wals frees)
      (TransactionRepository.flushWallets dirty)
      (Ends (fun _ s => ∃ now : Uuid → Time,
          (∀ w ∈ dirty, checkBalance w.availableBalance = none)
          ∧ Mid i key (ws ++ dirty.map (fun w => .setBalance w.id w.availableBalance (now w.id)))
              wals frees s) (Missed i key)) := by
  induction dirty generalizing ws with
  | nil => exact .ret Mid.stable (fun s _ h => ⟨fun _ => 0, by simp, by simpa using h⟩)
  | cons w dirty ih =>
      rw [List.map_cons, List.nodup_cons] at hnd
      have hfirst : Triple engine (contract db₀) i t (Mid i key ws wals frees)
          (query (.updateBalance w.id w.availableBalance))
          (Ends (fun _ s => ∃ n, checkBalance w.availableBalance = none
            ∧ Mid i key (ws ++ [.setBalance w.id w.availableBalance n]) wals frees s)
            (Missed i key)) := by
        refine Mid.writes (fun _ _ _ => rfl) trivial (by simp)
          (fun _ => .ex (fun n => .and (.const _) Mid.stable)) ?_
        intro s inp o hcheck _ hm _
        exact ⟨inp.now, hcheck, hm⟩
      refine triple_next Ends.lenient hfirst (fun _ => ?_)
      intro s hi h
      obtain ⟨n, hcheck, hm⟩ := h
      refine (ih hnd.2).conseq (fun _ _ h => h) ?_ s hi hm
      intro r s' hq
      cases r with
      | error e => exact hq
      | ok u =>
          -- the times drawn so far as one function: `w` is not among the rest
          obtain ⟨now, hchecks, hm'⟩ := hq
          refine ⟨fun id => if id = w.id then n else now id, ?_, ?_⟩
          · intro v hv
            rcases List.mem_cons.mp hv with rfl | hv
            · exact hcheck
            · exact hchecks v hv
          · have hrest : dirty.map (fun v => Write.setBalance v.id v.availableBalance
                  (if v.id = w.id then n else now v.id))
                = dirty.map (fun v => Write.setBalance v.id v.availableBalance (now v.id)) := by
              refine List.map_congr_left (fun v hv => ?_)
              have : v.id ≠ w.id := fun he => hnd.1 (he ▸ List.mem_map_of_mem hv)
              simp [this]
            rw [List.append_assoc, List.singleton_append] at hm'
            simpa [hrest] using hm'

/-- The status, together with the balances the same flush sends. -/
theorem triple_markCompleted {dirty : List Wallet} {txn : Transaction}
    (hnd : (dirty.map Wallet.id).Nodup) :
    Triple engine (contract db₀) i t (Mid i key ws wals frees)
      (TransactionRepository.markCompleted dirty txn)
      (Ends (fun txn' s => ∃ now : Uuid → Time,
          (txn' = txn.setStatus .completed ∧ ∀ w ∈ dirty, checkBalance w.availableBalance = none)
          ∧ Mid i key (ws ++ [.setStatus txn.id .completed]
              ++ (TransactionRepository.inKeyOrder dirty).map
                (fun w => .setBalance w.id w.availableBalance (now w.id))) wals frees s)
        (Missed i key)) := by
  have hperm : (TransactionRepository.inKeyOrder dirty).Perm dirty :=
    List.perm_insertionSort _ dirty
  have hnd' : ((TransactionRepository.inKeyOrder dirty).map Wallet.id).Nodup :=
    ((hperm.map Wallet.id).nodup_iff).mpr hnd
  have hstatus : Triple engine (contract db₀) i t (Mid i key ws wals frees)
      (query (.updateStatus txn.id .completed))
      (Ends (fun _ => Mid i key (ws ++ [.setStatus txn.id .completed]) wals frees)
        (Missed i key)) :=
    Mid.writes (fun _ _ _ => rfl) trivial (by simp) (fun _ => Mid.stable) (fun _ _ _ _ _ hm _ => hm)
  refine triple_next Ends.lenient hstatus (fun _ => ?_)
  refine triple_next Ends.lenient (triple_flushWallets hnd') (fun _ => ?_)
  refine .ret (.ex (fun _ => .and (.const _) Mid.stable)) (fun s _ h => ?_)
  obtain ⟨now, hchecks, hm⟩ := h
  exact ⟨now, ⟨rfl, fun w hw => hchecks w (hperm.mem_iff.mpr hw)⟩, hm⟩

/-- The domain event. -/
theorem triple_recordEvent {txn : Transaction} {amount : Int} {w : Uuid} {c : Option Uuid} :
    Triple engine (contract db₀) i t (Mid i key ws wals frees)
      (LedgerService.recordEvent txn amount w c)
      (Ends (fun _ s => ∃ id createdAt occurredAt,
          Mid i key (ws ++ [.insertEvent ⟨id, "transaction", txn.id, "transaction.completed",
            ⟨txn.id, txn.type.value, txn.status.value, txn.currency, amount, w, c, occurredAt⟩,
            createdAt, none⟩]) wals (.event id :: frees) s) (Missed i key)) := by
  have hnow : Triple engine (contract db₀) i t (Mid i key ws wals frees) (query .now)
      (Ends (fun _ => Mid i key ws wals frees) (Missed i key)) := by
    refine Mid.triple trivial (by simp) (fun _ => Mid.stable) ?_
    intro s s' inp e a hm he ha hdb hs _
    cases he
    have := (hs rfl).1
    rwa [List.append_nil] at this
  refine triple_next Ends.lenient hnow
    (fun n => triple_next Ends.lenient (P := fun _ s => ∃ id createdAt,
    Mid i key (ws ++ [.insertEvent ⟨id, "transaction", txn.id, "transaction.completed",
      ⟨txn.id, txn.type.value, txn.status.value, txn.currency, amount, w, c, n⟩,
      createdAt, none⟩]) wals (.event id :: frees) s) ?_ (fun _ => ?_))
  · refine Mid.inserts (fun _ _ _ => rfl) ?_ trivial (by simp)
      (fun _ => .ex (fun _ => .ex (fun _ => Mid.stable))) ?_
    · intro inp db o htaken r hr
      rw [List.mem_singleton.mp hr]
      simpa [Res.Absent] using htaken
    · intro s inp o _ _ hm
      exact ⟨inp.uuid, inp.now, hm⟩
  · refine .ret (.ex (fun _ => .ex (fun _ => Mid.stable))) (fun s _ h => ?_)
    obtain ⟨id, createdAt, hm⟩ := h
    exact ⟨id, createdAt, n, hm⟩

/-! ## The whole tail -/

/-- Everything is buffered, and everything it depends on is locked. -/
structure Booked (i : Sid) (key : Option String) (mv : Movement) (m : Minted) (s : LedgerStore) :
    Prop where
  mid : Mid i key (mv.writes m) mv.wallets (mv.keys m) s
  distinct : m.debit ≠ m.credit
  fits : mv.Fits

theorem Booked.stable {mv : Movement} {m : Minted} :
    Stable engine (contract db₀) i (Booked i key mv m) :=
  fun s s' h hr => ⟨Mid.stable s s' h.mid hr, h.distinct, h.fits⟩

omit [Runtime] in
/-- No wallet is updated twice. -/
theorem Movement.Shaped.nodup {mv : Movement} (h : mv.Shaped) :
    (mv.dirty.map Wallet.id).Nodup := by
  unfold Movement.Shaped at h
  unfold Movement.dirty
  split at h
  · obtain ⟨hs, w, ht⟩ := h
    rw [hs, ht]; simp [Side.dirty]
  · obtain ⟨s, r, hs, ht, hne⟩ := h
    rw [hs, ht]; simp [Side.dirty, hne]
  · obtain ⟨⟨w, hs⟩, ht⟩ := h
    rw [hs, ht]; simp [Side.dirty]

/-- **Booking a movement buffers exactly its write set, all of it under locks.** -/
theorem triple_book {mv : Movement} {k : Transaction → Tx β}
    {Q : Except Exn β → LedgerStore → Prop} (hQ : Lenient i key Q) (hs : mv.Shaped)
    (hk : ∀ m, Triple engine (contract db₀) i t (Booked i key mv m) (k (mv.txn m)) Q) :
    Triple engine (contract db₀) i t (Mid i key [] mv.wallets []) (book mv k) Q := by
  refine triple_next hQ triple_create (fun txn => ?_)
  rintro s hi ⟨⟨htxn, hcheck⟩, hm⟩
  obtain ⟨hcur, hkey⟩ := checkTransaction_none hcheck
  obtain ⟨hsub₁, hsub₂⟩ := mv.legs_wallets
  refine triple_next hQ (triple_bookLeg hsub₁) (fun e₁ => ?_) s hi hm
  rintro s hi ⟨⟨he₁, hamount, -⟩, hm⟩
  refine triple_next hQ (triple_bookLeg hsub₂) (fun e₂ => ?_) s hi hm
  rintro s hi ⟨⟨he₂, -, hne⟩, hm⟩
  refine triple_next hQ (triple_markCompleted hs.nodup) (fun txn' => ?_) s hi hm
  rintro s hi ⟨now, ⟨rfl, hbal⟩, hm⟩
  refine triple_next hQ triple_recordEvent (fun _ => ?_) s hi hm
  rintro s hi ⟨event, eventAt, occurredAt, hm⟩
  -- all draws are known now
  let m : Minted := .ofRows mv.type txn.id e₁ e₂ event eventAt occurredAt now
  have hheader : mv.header m = txn := by
    rw [htxn]; simp [m, Movement.header]
  have hsafe := hk m s hi ⟨?_, ?_, ?_⟩
  · rw [Movement.txn, hheader] at hsafe
    exact hsafe
  · rw [writes_ofRows mv txn e₁ e₂ htxn he₁ he₂]
    exact hm.weaken (fun _ h => h) (keys_ofRows htxn)
  · have h₁₂ : e₁.id ≠ e₂.id := hne e₁ (by simp)
    rcases ofRows_legs with ⟨hd, hc⟩ | ⟨hd, hc⟩
    · rw [hd, hc]; exact h₁₂
    · rw [hd, hc]; exact h₁₂.symm
  · rw [htxn] at hcur hkey
    exact ⟨hcur, hkey, hamount, hbal⟩

end WalletLedger
