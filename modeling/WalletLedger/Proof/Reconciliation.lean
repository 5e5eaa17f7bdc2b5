import WalletLedger.Proof.Effects
import WalletLedger.Proof.Single
import WalletLedger.Proof.Trails

/-!
# Reconciliation while traffic is running

The job sends two queries, and at READ COMMITTED each of them meets the state
committed when it starts. The books balance in either state. The report compares
the ledger of the first with the wallets of the second, so it is clean exactly if
no balance has changed in between.
-/

namespace WalletLedger

open Isolation Prog

variable [Runtime]

/-- The balance of a wallet, 0 if there is none. -/
def Db.balanceOf (db : Db) (id : Uuid) : Int :=
  ((db.wallets.get id).map Wallet.availableBalance).getD 0

/-- Every wallet has the balance it had, and a new one has none. -/
def SameBalances (db db' : Db) : Prop :=
  ∀ x ∈ db'.wallets.rows, x.availableBalance = db.balanceOf x.id

/-! ## The two queries -/

omit [Runtime] in
/-- What the ledger query says of a wallet, with 0 for a wallet it does not list. -/
theorem lookup_ledgerBalances (db : Db) (id : Uuid) :
    (db.ledgerBalances.lookup id).getD 0
      = ((db.entriesOfWallet id).map LedgerEntry.signedAmount).sum := by
  have hlookup : ∀ (ids : List Uuid) (f : Uuid → Int),
      (ids.map (fun j => (j, f j))).lookup id = if id ∈ ids then some (f id) else none := by
    intro ids f
    induction ids with
    | nil => rfl
    | cons j ids ih =>
        by_cases hj : id = j
        · subst hj
          simp
        · have hne : (id == j) = false := by simpa using hj
          simp [List.lookup_cons, hne, ih, hj]
  unfold Db.ledgerBalances
  rw [hlookup]
  by_cases hid : id ∈ (db.ledgerEntries.rows.filterMap LedgerEntry.walletId).dedup
  · rw [if_pos hid]
    rfl
  · -- a wallet without legs
    have hnone : db.entriesOfWallet id = [] := by
      rw [Db.entriesOfWallet, List.filter_eq_nil_iff]
      intro e he hw
      refine hid (List.mem_dedup.mpr (List.mem_filterMap.mpr ⟨e, he, ?_⟩))
      simpa using hw
    rw [if_neg hid, hnone]
    rfl

omit [Runtime] in
/-- In a state with books, that is its balance. -/
theorem Books.ledgerBalance {db : Db} (h : Books db) (id : Uuid) :
    (db.ledgerBalances.lookup id).getD 0 = db.balanceOf id := by
  rw [lookup_ledgerBalances, Db.balanceOf]
  cases hid : db.wallets.get id with
  | some x => exact (h.balanced.signed hid).1.symm
  | none =>
      have hsum := sum_signedAmount db.ledgerEntries.rows id
      have hc := sumLegs_absent h hid .credit
      have hd := sumLegs_absent h hid .debit
      unfold Db.sumLegs at hc hd
      rw [hc, hd] at hsum
      exact hsum

omit [Runtime] in
/-- **The report is clean exactly if no balance has changed between the queries.** -/
theorem Books.discrepancies_eq_nil {db db' : Db} (h : Books db) :
    ReconciliationService.discrepancies db.ledgerBalances db'.wallets.rows = []
      ↔ SameBalances db db' := by
  unfold ReconciliationService.discrepancies SameBalances
  rw [List.filterMap_eq_nil_iff]
  refine forall_congr' (fun x => imp_congr_right (fun _ => ?_))
  rw [h.ledgerBalance]
  by_cases hx : x.availableBalance = db.balanceOf x.id
  · simp [hx]
  · simp [hx]

/-! ## The job -/

/-- A report without discrepancies. -/
def Clean (r : Except Exn Reply) : Prop := ∃ rep, r = .ok (.report rep) ∧ rep.discrepancies = []

/-- Both queries are answered, and no balance changes from the first to the second. -/
structure Undisturbed (os : List LedgerObs) : Prop where
  answered : ∀ o ∈ os, o.stmt = .selectLedgerBalances ∨ o.stmt = .selectWallets → o.inp.fault = none
  still : ∀ o ∈ os, ∀ o' ∈ os, o.stmt = .selectLedgerBalances → o'.stmt = .selectWallets →
    SameBalances o.db o'.db

/-- How the job ends: a query fails, or it reports on the two states its queries met. -/
theorem reconcile_trail {i : Sid} {os : List LedgerObs} {r : Except Exn Reply} {ws : List Write}
    (h : Trail engine i .reconcile (Request.program .reconcile) [] os (ofExcept r) ws) :
    ((∃ e, r = .error e) ∧ ∃ o ∈ os, (o.stmt = .selectLedgerBalances ∨ o.stmt = .selectWallets)
        ∧ o.inp.fault ≠ none)
    ∨ ∃ o₁ o₂ o₃ : LedgerObs, os = [o₁, o₂, o₃] ∧ o₁.stmt = .selectLedgerBalances
        ∧ o₂.stmt = .selectWallets ∧ o₃.stmt = .close ∧ o₁.inp.fault = none ∧ o₂.inp.fault = none
        ∧ r = .ok (.report ⟨o₂.db.wallets.rows.length,
            ReconciliationService.discrepancies o₁.db.ledgerBalances o₂.db.wallets.rows⟩) := by
  obtain ⟨os, o₃, ws₀, rfl, hclose, hbody⟩ := withSession_ended h
  obtain ⟨r', hcheck, rfl⟩ := hbody.map_ended
  rcases hcheck.bind_ended with ⟨e, hfail, rfl⟩ | ⟨ledger, os₁, os₂, ws₁, rfl, h₁, h₂⟩
  · obtain ⟨o₁, rfl, hq₁, ⟨f, hf, -⟩ | ⟨-, habs, -⟩⟩ := read_ended (fun _ _ _ _ => rfl) hfail
    · exact .inl ⟨⟨e, rfl⟩, o₁, by simp, .inl hq₁, by rw [hf]; simp⟩
    · exact absurd habs (by simp)
  obtain ⟨o₁, rfl, hq₁, ⟨f, -, habs, -⟩ | ⟨hf₁, hl, rfl⟩⟩ := read_ended (fun _ _ _ _ => rfl) h₁
  · exact absurd habs (by simp)
  rcases h₂.bind_ended with ⟨e, hfail, rfl⟩ | ⟨wallets, os₃, os₄, ws₂, rfl, h₃, h₄⟩
  · obtain ⟨o₂, rfl, hq₂, ⟨f, hf, -⟩ | ⟨-, habs, -⟩⟩ := read_ended (fun _ _ _ _ => rfl) hfail
    · exact .inl ⟨⟨e, rfl⟩, o₂, by simp, .inr hq₂, by rw [hf]; simp⟩
    · exact absurd habs (by simp)
  obtain ⟨o₂, rfl, hq₂, ⟨f, -, habs, -⟩ | ⟨hf₂, hw, rfl⟩⟩ := read_ended (fun _ _ _ _ => rfl) h₃
  · exact absurd habs (by simp)
  obtain ⟨rfl, hr, -⟩ := h₄.ret_inv
  have hr' : r' = .ok ⟨wallets.length, ReconciliationService.discrepancies ledger wallets⟩ :=
    ofExcept_inj hr
  injection hl with hl
  injection hw with hw
  refine .inr ⟨o₁, o₂, o₃, rfl, hq₁, hq₂, hclose, hf₁, hf₂, ?_⟩
  rw [hr', hl, hw]
  rfl

/-- **The job raises no alarm exactly if its queries are answered and no balance changes
between them.** -/
theorem reconciled_iff (w : LedgerWorld) (h : ReachableFrom .empty w) (i : Sid)
    (r : Except Exn Reply) (hs : ended w i = some (.reconcile, r)) :
    Clean r ↔ Undisturbed (w.store.script i) := by
  obtain ⟨ws, htrail⟩ := ended_trail h hs rfl
  rcases reconcile_trail htrail with ⟨⟨e, rfl⟩, o, ho, hq, hf⟩
    | ⟨o₁, o₂, o₃, hos, hq₁, hq₂, hq₃, hf₁, hf₂, rfl⟩
  · constructor
    · rintro ⟨rep, hrep, -⟩
      exact absurd hrep (by simp)
    · intro hu
      exact absurd (hu.answered o ho hq) hf
  have hmem : o₁ ∈ w.store.script i := by rw [hos]; simp
  have hbooks : Books o₁.db := by
    rw [(h.past.2 o₁ (mem_script.mp hmem).1).2]
    have hchain := (reachable_settled h).chain (Nat.zero_le o₁.clock)
    exact Chain.books hchain books_empty
  have hclean : Clean (.ok (.report ⟨o₂.db.wallets.rows.length,
      ReconciliationService.discrepancies o₁.db.ledgerBalances o₂.db.wallets.rows⟩))
      ↔ SameBalances o₁.db o₂.db := by
    rw [← hbooks.discrepancies_eq_nil]
    constructor
    · rintro ⟨rep, hrep, hnil⟩
      cases hrep
      exact hnil
    · exact fun hnil => ⟨_, rfl, hnil⟩
  rw [hclean, hos]
  constructor
  · intro hsame
    refine ⟨fun o ho hq => ?_, fun o ho o' ho' hq hq' => ?_⟩
    · simp only [List.mem_cons, List.not_mem_nil, or_false] at ho
      rcases ho with rfl | rfl | rfl
      · exact hf₁
      · exact hf₂
      · rw [hq₃] at hq
        exact absurd hq (by simp)
    · simp only [List.mem_cons, List.not_mem_nil, or_false] at ho ho'
      rcases ho with rfl | rfl | rfl <;> rcases ho' with rfl | rfl | rfl <;> simp_all
  · exact fun hu => hu.still o₁ (by simp) o₂ (by simp) hq₁ hq₂

/-- A deposit commits between the two queries. -/
def midway : List LedgerAction :=
  accounts ++ [.spawn .reconcile] ++ advance 4 1 0
    ++ [.spawn (.deposit 31 12 (depositOf 100))] ++ advance 5 14 50 ++ advance 4 2 0

omit [Runtime] in
theorem midway_reported : (runPlain .empty midway).map (fun w => ended w 4)
    = some (some (.reconcile, .ok (.report ⟨2, [⟨31, 100, 0⟩]⟩))) := by
  decide +kernel

omit [Runtime] in
/-- An alarm, and nothing is wrong. -/
theorem false_alarm : ¬∀ w, @ReachableFrom plainRuntime .empty w → ∀ i r,
    ended w i = some (.reconcile, r) → (∀ o ∈ w.store.trace, o.inp.fault = none) → Clean r := by
  intro hall
  obtain ⟨w, hr, hw⟩ := exists_runPlain .empty midway
    (fun w => (ended w 4, w.store.trace.all (fun o => o.inp.fault.isNone)))
    (v := (some (.reconcile, .ok (.report ⟨2, [⟨31, 100, 0⟩]⟩)), true)) (by decide +kernel)
  have hend := congrArg Prod.fst hw
  have hfault := List.all_eq_true.mp (congrArg Prod.snd hw)
  obtain ⟨rep, hrep, hnil⟩ := hall w hr 4 _ hend
    (fun o ho => Option.isNone_iff_eq_none.mp (hfault o ho))
  cases hrep
  exact absurd hnil (by simp)

/-- The deposit commits before the first query. -/
def quiet : List LedgerAction := opening ++ [.spawn .reconcile] ++ advance 5 3 70

omit [Runtime] in
/-- The disturbed check fails on both sides of the condition, a quiet one meets both. -/
theorem midway_reconciled : (∃ w, (@ReachableFrom plainRuntime .empty w
    ∧ ended w 4 = some (.reconcile, .ok (.report ⟨2, [⟨31, 100, 0⟩]⟩)))
    ∧ (Clean (.ok (.report ⟨2, [⟨31, 100, 0⟩]⟩)) ↔ Undisturbed (w.store.script 4)))
    ∧ ∃ w, (@ReachableFrom plainRuntime .empty w
      ∧ ended w 5 = some (.reconcile, .ok (.report ⟨2, []⟩)))
      ∧ w.store.db.wallets.rows.map Wallet.availableBalance = [100, 0]
      ∧ Clean (.ok (.report ⟨2, []⟩)) ∧ Undisturbed (w.store.script 5) := by
  constructor
  · obtain ⟨w, hr, hw⟩ := exists_runPlain .empty midway (fun w => ended w 4) midway_reported
    exact ⟨w, ⟨hr, hw⟩, @reconciled_iff plainRuntime w hr 4 _ hw⟩
  · obtain ⟨w, hr, hw⟩ := exists_runPlain .empty quiet
      (fun w => (ended w 5, w.store.db.wallets.rows.map Wallet.availableBalance))
      (v := (some (.reconcile, .ok (.report ⟨2, []⟩)), [100, 0])) (by decide +kernel)
    have hend := congrArg Prod.fst hw
    have hclean : Clean (.ok (.report ⟨2, []⟩)) := ⟨_, rfl, rfl⟩
    exact ⟨w, ⟨hr, hend⟩, congrArg Prod.snd hw, hclean,
      (@reconciled_iff plainRuntime w hr 5 _ hend).mp hclean⟩

/-! ## What the report says -/

omit [Runtime] in
/-- What the ledger query says of a wallet is what its legs add up to, whatever the tables
hold. -/
theorem ledgerBalance_eq (db : Db) (id : Uuid) :
    (db.ledgerBalances.lookup id).getD 0 = db.credits id - db.debits id :=
  (lookup_ledgerBalances db id).trans (sum_signedAmount db.ledgerEntries.rows id)

/-- A report that tells of a database what there is to tell. -/
structure Exact (db : Db) (report : ReconciliationReport) : Prop where
  checked : report.walletsChecked = db.wallets.rows.length
  /-- No wallet is listed twice. -/
  once : (report.discrepancies.map Discrepancy.walletId).Nodup
  /-- Exactly the wallets that are off are listed, with both numbers. -/
  listed : ∀ d, d ∈ report.discrepancies ↔ ∃ x ∈ db.wallets.rows,
    x.availableBalance ≠ db.credits x.id - db.debits x.id
      ∧ d = ⟨x.id, x.availableBalance, db.credits x.id - db.debits x.id⟩
  diff : ∀ d ∈ report.discrepancies,
    d.diff = d.cachedBalance - (db.credits d.walletId - db.debits d.walletId)
  ok : report.ok = true ↔
    ∀ x ∈ db.wallets.rows, x.availableBalance = db.credits x.id - db.debits x.id

omit [Runtime] in
theorem mem_discrepancies {db : Db} {d : Discrepancy} :
    d ∈ ReconciliationService.discrepancies db.ledgerBalances db.wallets.rows
      ↔ ∃ x ∈ db.wallets.rows, x.availableBalance ≠ db.credits x.id - db.debits x.id
        ∧ d = ⟨x.id, x.availableBalance, db.credits x.id - db.debits x.id⟩ := by
  unfold ReconciliationService.discrepancies
  rw [List.mem_filterMap]
  refine exists_congr (fun x => and_congr_right (fun _ => ?_))
  rw [ledgerBalance_eq]
  by_cases hx : x.availableBalance = db.credits x.id - db.debits x.id
  · simp [hx]
  · simp [hx, eq_comm]

omit [Runtime] in
theorem nodup_discrepancies (db : Db) :
    ((ReconciliationService.discrepancies db.ledgerBalances db.wallets.rows).map
      Discrepancy.walletId).Nodup := by
  -- the listed ids are a sublist of the primary keys
  have hsub : ∀ l : List Wallet, List.Sublist
      ((ReconciliationService.discrepancies db.ledgerBalances l).map Discrepancy.walletId)
      (l.map Wallet.id) := by
    intro l
    induction l with
    | nil => exact .slnil
    | cons x l ih =>
        by_cases hx : x.availableBalance ≠ (db.ledgerBalances.lookup x.id).getD 0
        · have hcons : ReconciliationService.discrepancies db.ledgerBalances (x :: l)
              = ⟨x.id, x.availableBalance, (db.ledgerBalances.lookup x.id).getD 0⟩
                :: ReconciliationService.discrepancies db.ledgerBalances l := by
            simp [ReconciliationService.discrepancies, hx]
          rw [hcons]
          exact ih.cons_cons x.id
        · have hskip : ReconciliationService.discrepancies db.ledgerBalances (x :: l)
              = ReconciliationService.discrepancies db.ledgerBalances l := by
            simp only [ReconciliationService.discrepancies, List.filterMap_cons, if_neg hx]
          rw [hskip]
          exact ih.cons x.id
  exact (hsub _).nodup db.wallets.nodup

omit [Runtime] in
theorem exact_discrepancies (db : Db) :
    Exact db ⟨db.wallets.rows.length,
      ReconciliationService.discrepancies db.ledgerBalances db.wallets.rows⟩ where
  checked := rfl
  once := nodup_discrepancies db
  listed := fun _ => mem_discrepancies
  diff := by
    intro d hd
    obtain ⟨x, -, -, rfl⟩ := mem_discrepancies.mp hd
    rfl
  ok := by
    unfold ReconciliationReport.ok
    rw [List.isEmpty_iff, List.eq_nil_iff_forall_not_mem]
    constructor
    · intro hnone x hx
      by_contra hne
      exact hnone _ (mem_discrepancies.mpr ⟨x, hx, hne, rfl⟩)
    · intro hall d hd
      obtain ⟨x, hx, hne, -⟩ := mem_discrepancies.mp hd
      exact hne (hall x hx)

omit [Runtime] in
/-- **Run without concurrent writes, the job reports exactly the wallets that are off**,
whatever the database holds. -/
theorem check_exact (s : LedgerStore) (i : Sid) (hs : Solo i [] s) (t : Request) (inp : Inp)
    (hf : inp.fault = none) :
    ∃ report s', runAlone engine i t inp ReconciliationService.check s = some (.ok report, s')
      ∧ s'.db = s.db ∧ Exact s.db report := by
  obtain ⟨s₁, h₁, hs₁, hdb₁, -⟩ := solo_reads (t := t) (q := .selectLedgerBalances) hs hf rfl
  obtain ⟨s₂, h₂, -, hdb₂, -⟩ := solo_reads (t := t) (q := .selectWallets) hs₁ hf rfl
  refine ⟨_, s₂, (runAlone_bind h₁).trans ((runAlone_bind h₂).trans rfl), hdb₂.trans hdb₁, ?_⟩
  rw [hdb₁]
  exact exact_discrepancies s.db

/-- A wallet that says 100 with 40 booked, and one that says what is booked, nothing. -/
def drifted : Db :=
  Db.empty.applyAll
    [.insertWallet ⟨31, 11, "INR", 100, 0, 0, 0⟩, .insertWallet ⟨32, 12, "INR", 0, 0, 0, 0⟩,
      .insertEntry ⟨5, 0, 3, .credit, 40, "INR", some 31, none, 0⟩,
      .insertEntry ⟨6, 1, 3, .debit, 40, "INR", none, some "EXTERNAL_FUNDING", 0⟩]

omit [Runtime] in
example : ReconciliationService.discrepancies drifted.ledgerBalances drifted.wallets.rows
    = [⟨31, 100, 40⟩] := by decide

omit [Runtime] in
theorem drifted_exact : ∃ report s',
    runAlone engine 0 .reconcile {} ReconciliationService.check (LedgerStore.start drifted)
      = some (.ok report, s') ∧ s'.db = drifted ∧ Exact drifted report :=
  check_exact (LedgerStore.start drifted) 0 (AtRest.solo ⟨fun _ => rfl, rfl⟩ 0) .reconcile {} rfl

end WalletLedger
