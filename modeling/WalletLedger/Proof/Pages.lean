import WalletLedger.Isolation.Paging
import WalletLedger.Proof.Statement
import WalletLedger.Proof.Trails

/-!
# Walking through a wallet's history

A reader fetches the legs of a wallet page by page, newest first, while money goes on
moving. Offsets count from the newest leg, so every commit shifts the older ones. But a
new leg of a wallet has a larger `seq` than all its committed ones, so the legs are a
list that only grows at its newest end, and a place in it never gets smaller.
-/

namespace WalletLedger

open Isolation Prog

variable [Runtime]

/-! ## The legs of a wallet over a run -/

/-- Legs are only ever appended. -/
theorem Legal.entries_grow {t : Request} {db : Db} {ws : List Write} (h : Legal t db ws) :
    db.ledgerEntries.rows <+: (db.applyAll ws).ledgerEntries.rows := by
  rcases h.cases with ⟨u, -, rfl⟩ | ⟨x, -, -, rfl⟩ | ⟨mv, m, -, hok, hu, rfl⟩ | hout
  · exact List.prefix_rfl
  · exact List.prefix_rfl
  · rw [(Movement.posted hok.shaped hu).entries]
    exact List.prefix_append _ _
  · have hsame := congrArg Table.rows (sameBooks_applyAll db hout).entries
    exact ⟨[], (List.append_nil _).trans hsame.symm⟩

theorem Evolves.entriesOfWallet_grow {db db' : Db} (h : Evolves db db') (id : Uuid) :
    db.entriesOfWallet id <+: db'.entriesOfWallet id := by
  obtain ⟨cs, hc⟩ := h
  have hrows : db.ledgerEntries.rows <+: db'.ledgerEntries.rows :=
    hc.induct (P := fun d => db.ledgerEntries.rows <+: d.ledgerEntries.rows) List.prefix_rfl
      (fun _ _ _ hl hd => hd.trans hl.entries_grow)
  exact hrows.filter _

/-- Of two statements, the later one meets the later state. -/
theorem reachable_evolves {w : LedgerWorld} (h : ReachableFrom .empty w) {o o' : LedgerObs}
    (ho : o ∈ w.store.trace) (ho' : o' ∈ w.store.trace) (hle : o.clock ≤ o'.clock) :
    Evolves o.db o'.db := by
  rw [(h.past.2 o ho).2, (h.past.2 o' ho').2]
  exact ⟨_, (reachable_settled h).chain hle⟩

/-- The legs that any statement meets are in the order of their numbers. -/
theorem met_ascending {w : LedgerWorld} (h : ReachableFrom .empty w) {o : LedgerObs}
    (ho : o ∈ w.store.trace) (id : Uuid) :
    (o.db.entriesOfWallet id).Pairwise (fun a b => a.seq < b.seq) := by
  have hset := reachable_settled h
  exact (hset.ascending id).sublist ((hset.seen o ho).entriesOfWallet_grow id).sublist

omit [Runtime] in
/-- Newest first is last committed first. -/
theorem entriesPage_eq {db : Db} {id : Uuid}
    (h : (db.entriesOfWallet id).Pairwise (fun a b => a.seq < b.seq)) (L k : Nat) :
    db.entriesPage id L (k * L) = page (db.entriesOfWallet id) L k := by
  have hsorted : ((db.entriesOfWallet id).insertionSort (fun a b => b.seq ≤ a.seq))
      = (db.entriesOfWallet id).reverse := by
    refine @List.Perm.eq_of_pairwise _ (fun a b => b.seq ≤ a.seq) _ _ (fun a b ha hb hab hba => ?_)
      (List.pairwise_insertionSort _ _) ?_
      ((List.perm_insertionSort _ _).trans (List.reverse_perm _).symm)
    · -- a number stands for one leg
      rw [List.mem_insertionSort] at ha
      rw [List.mem_reverse] at hb
      have hseq : a.seq = b.seq := Nat.le_antisymm hba hab
      obtain ⟨m, hm, rfl⟩ := List.getElem_of_mem ha
      obtain ⟨n, hn, rfl⟩ := List.getElem_of_mem hb
      rw [List.pairwise_iff_getElem] at h
      rcases Nat.lt_trichotomy m n with hlt | rfl | hlt
      · have := h m n hm hn hlt
        omega
      · rfl
      · have := h n m hn hm hlt
        omega
    · rw [List.pairwise_reverse]
      exact h.imp Nat.le_of_lt
  unfold Db.entriesPage page
  rw [hsorted]

/-! ## A walk -/

/-- The page a statement asks for. -/
def Stmt.page (q : Stmt) (db : Db) : List LedgerEntry :=
  match q with
  | .selectEntries id limit offset => db.entriesPage id limit offset
  | _ => []

/-- The page a statement is answered with. -/
def shown (o : LedgerObs) : List LedgerEntry := o.stmt.page o.db

/-- A walk through a wallet's history: one page after another, as long as the pages are
full. Other sessions may do anything in between. -/
structure Walk (w : LedgerWorld) (id : Uuid) (L : Nat) (os : List LedgerObs) : Prop where
  ran : os.Sublist w.store.trace
  fetch : ∀ (k : Nat) (o : LedgerObs), os[k]? = some o →
    o.stmt = .selectEntries id L (k * L) ∧ o.ok = true
  full : ∀ (k : Nat) (o : LedgerObs), os[k]? = some o → k + 1 < os.length → (shown o).length = L

/-- The last page was not full. -/
def Finishes (L : Nat) (os : List LedgerObs) : Prop :=
  ∃ o, os.getLast? = some o ∧ (shown o).length < L

section walk

variable {w : LedgerWorld} {id : Uuid} {L : Nat} {os : List LedgerObs}

theorem Walk.shown_eq (hw : Walk w id L os) (h : ReachableFrom .empty w) {k : Nat} {o : LedgerObs}
    (ho : os[k]? = some o) : shown o = page (o.db.entriesOfWallet id) L k := by
  have hmem := hw.ran.subset (List.mem_of_getElem? ho)
  unfold shown
  rw [(hw.fetch k o ho).1]
  exact entriesPage_eq (met_ascending h hmem id) L k

/-- The pages are read in the order of the states they show. -/
theorem Walk.grows (hw : Walk w id L os) (h : ReachableFrom .empty w) {k n : Nat} (hkn : k < n)
    {o o' : LedgerObs} (ho : os[k]? = some o) (ho' : os[n]? = some o') :
    o.db.entriesOfWallet id <+: o'.db.entriesOfWallet id := by
  obtain ⟨hk, rfl⟩ := List.getElem?_eq_some_iff.mp ho
  obtain ⟨hn, rfl⟩ := List.getElem?_eq_some_iff.mp ho'
  have hclock := List.pairwise_iff_getElem.mp (h.clocks.sublist hw.ran) k n hk hn hkn
  exact (reachable_evolves h (hw.ran.subset (List.getElem_mem hk))
    (hw.ran.subset (List.getElem_mem hn)) hclock).entriesOfWallet_grow id

/-- **A walk that finishes has shown every leg that was committed when it began.** -/
theorem Walk.complete (hw : Walk w id L os) (h : ReachableFrom .empty w) (hfin : Finishes L os)
    {o₀ : LedgerObs} (h₀ : os[0]? = some o₀) {e : LedgerEntry}
    (he : e ∈ o₀.db.entriesOfWallet id) : ∃ o ∈ os, e ∈ shown o := by
  obtain ⟨hpos, -⟩ := List.getElem?_eq_some_iff.mp h₀
  -- the legs the `k`-th page was taken from
  let ls : Nat → List LedgerEntry := fun k =>
    ((os[k]?).map (fun o => o.db.entriesOfWallet id)).getD []
  have hls : ∀ {k o}, os[k]? = some o → ls k = o.db.entriesOfWallet id := by
    intro k o ho
    show ((os[k]?).map _).getD [] = _
    rw [ho]
    rfl
  have hgrow : ∀ k, k < os.length - 1 → ls k <+: ls (k + 1) := by
    intro k hk
    have ho := List.getElem?_eq_getElem (l := os) (i := k) (by omega)
    have ho' := List.getElem?_eq_getElem (l := os) (i := k + 1) (by omega)
    rw [hls ho, hls ho']
    exact hw.grows h (Nat.lt_succ_self k) ho ho'
  have hshort : (page (ls (os.length - 1)) L (os.length - 1)).length < L := by
    obtain ⟨o, hlast, hlen⟩ := hfin
    rw [List.getLast?_eq_getElem?] at hlast
    rw [hls hlast, ← hw.shown_eq h hlast]
    exact hlen
  rw [← hls h₀] at he
  obtain ⟨k, hk, hpage⟩ := exists_page hgrow hshort he
  have ho := List.getElem?_eq_getElem (l := os) (i := k) (by omega)
  rw [hls ho, ← hw.shown_eq h ho] at hpage
  exact ⟨_, List.mem_of_getElem? ho, hpage⟩

/-- If nothing commits meanwhile, all pages are of the same legs. -/
theorem Walk.still (hw : Walk w id L os) (h : ReachableFrom .empty w) {o₀ : LedgerObs}
    (h₀ : os[0]? = some o₀) (hquiet : ∀ o ∈ os, o.clock = o₀.clock) {k : Nat} {o : LedgerObs}
    (ho : os[k]? = some o) : shown o = page (o₀.db.entriesOfWallet id) L k := by
  have hmem := List.mem_of_getElem? ho
  have hdb : o.db = o₀.db := by
    rw [(h.past.2 o (hw.ran.subset hmem)).2, hquiet o hmem,
      ← (h.past.2 o₀ (hw.ran.subset (List.mem_of_getElem? h₀))).2]
  rw [hw.shown_eq h ho, hdb]

theorem Walk.flatMap_shown (hw : Walk w id L os) (h : ReachableFrom .empty w) {o₀ : LedgerObs}
    (h₀ : os[0]? = some o₀) (hquiet : ∀ o ∈ os, o.clock = o₀.clock) (hfin : Finishes L os) :
    os.flatMap shown = (o₀.db.entriesOfWallet id).reverse := by
  have hpages : os.map shown
      = (List.range os.length).map (page (o₀.db.entriesOfWallet id) L) := by
    refine List.ext_getElem (by simp) (fun k hk hk' => ?_)
    rw [List.getElem_map, List.getElem_map, List.getElem_range]
    exact hw.still h h₀ hquiet (List.getElem?_eq_getElem _)
  obtain ⟨o, hlast, hlen⟩ := hfin
  rw [List.getLast?_eq_getElem?] at hlast
  obtain ⟨hpos, -⟩ := List.getElem?_eq_some_iff.mp hlast
  rw [hw.still h h₀ hquiet hlast, length_page] at hlen
  rw [List.flatMap_def, hpages, ← List.flatMap_def, flatMap_page]
  refine List.take_of_length_le ?_
  have hall : os.length * L = (os.length - 1) * L + L := by
    rw [← Nat.succ_mul, Nat.succ_eq_add_one, Nat.sub_add_cancel (by omega)]
  rw [List.length_reverse, hall]
  omega

/-- A walk during which nothing commits comes to an end. -/
theorem Walk.length_le (hw : Walk w id L os) (h : ReachableFrom .empty w) (hL : 0 < L)
    {o₀ : LedgerObs} (h₀ : os[0]? = some o₀) (hquiet : ∀ o ∈ os, o.clock = o₀.clock) :
    os.length ≤ (o₀.db.entriesOfWallet id).length / L + 1 := by
  have hfull := full_pages_le (l := o₀.db.entriesOfWallet id) (n := os.length - 1)
    hL (fun k hk => by
    have ho := List.getElem?_eq_getElem (l := os) (i := k) (by omega)
    rw [← hw.still h h₀ hquiet ho]
    exact hw.full k _ ho (by omega))
  omega

end walk

/-! ## What a request shows -/

/-- The answer to a request for the history is the page its query met. -/
theorem listTransactions_shown {w : LedgerWorld}
    (h : ReachableFrom .empty w) {i : Sid} {id u : Uuid}
    {L offset : Nat} {hist : TransactionHistory}
    (hs : ended w i = some (.listTransactions id L offset u, .ok (.history hist))) :
    ∃ o ∈ w.store.script i, o.stmt = .selectEntries id L offset ∧ o.ok = true
      ∧ hist = ⟨(shown o).map .ofEntry, L, offset⟩ := by
  obtain ⟨ws, htrail⟩ := ended_trail h hs rfl
  obtain ⟨os, o₃, ws₀, hos, -, hbody⟩ := withSession_ended htrail
  obtain ⟨r', hlist, hr'⟩ := hbody.map_ended
  rw [hos]
  rcases hlist.bind_ended with ⟨e, -, rfl⟩ | ⟨x, os₁, os₂, ws₁, rfl, h₁, h₂⟩
  · cases hr'
  obtain ⟨o₁, rfl, -, ⟨f, -, habs, -⟩ | ⟨-, -, rfl⟩⟩ := read_ended (fun _ _ _ _ => rfl) h₁
  · exact absurd habs (by simp)
  rcases raiseIf_ended h₂ with ⟨-, -, rfl, -⟩ | ⟨-, h₃⟩
  · cases hr'
  rcases h₃.bind_ended with ⟨e, -, rfl⟩ | ⟨entries, os₃, os₄, ws₃, rfl, h₄, h₅⟩
  · cases hr'
  obtain ⟨inp, db, aux, n, eff, rfl, hrun, hans, -⟩ := h₄.perform_ended
  obtain ⟨-, hr, -⟩ := h₅.ret_inv
  obtain ⟨ha, -⟩ := readsChecked_ok ((congrArg Effect.ans (Option.some.inj hrun)).trans hans.symm)
  have hr'' : r' = .ok ⟨entries.map .ofEntry, L, offset⟩ := ofExcept_inj hr
  rw [hr''] at hr'
  cases hr'
  refine ⟨_, List.mem_append_left _ (List.mem_append_right _ (List.mem_append_left _
    (List.mem_singleton.mpr rfl))), rfl, ?_, ?_⟩
  · rw [← hans]
    rfl
  · rw [ha]
    rfl

/-- A page is fetched for the request it was asked in, and for nothing else. -/
theorem fetch_tag {w : LedgerWorld} (h : ReachableFrom .empty w) {o : LedgerObs}
    (ho : o ∈ w.store.trace)
    {id : Uuid} {L offset : Nat} (hq : o.stmt = .selectEntries id L offset) :
    ∃ u, o.tag = .listTransactions id L offset u := by
  have harea := (h.uses (P := fun (t : Request) (q : Stmt) => q.area ∈ t.areas)
    (by simp [LedgerStore.start, Store.init]) Request.program_keeps
    (fun t p hp => Request.next_keeps hp)).2 o ho
  have hstmts := (h.uses (P := fun (t : Request) (q : Stmt) => ∀ id L offset u,
      t = .listTransactions id L offset u → HistoryStmt id L offset q ∨ q = .close)
    (by simp [LedgerStore.start, Store.init]) (fun t => ?_) (fun t p hp => ?_)).2 o ho
  · rw [hq] at harea hstmts
    cases ht : o.tag with
    | listTransactions id' L' offset' u =>
        rcases hstmts _ _ _ _ ht with (he | he) | he
        · exact absurd he (by simp)
        · cases he
          exact ⟨u, rfl⟩
        · exact absurd he (by simp)
    | _ => rw [ht] at harea; exact absurd harea (by simp [Request.areas, Stmt.area])
  · have hall := Request.program_keeps t
    cases t with
    | listTransactions id L offset u =>
        refine uses_withSession (Uses.mono (uses_listTransactions id L offset u) ?_) ?_
        · intro q hq _ _ _ _ he
          cases he
          exact .inl hq
        · exact fun _ _ _ _ _ => .inr rfl
    | _ => exact Uses.mono hall (fun q _ _ _ _ _ he => absurd he (by simp))
  · exact Uses.mono (Request.next_keeps hp) (fun q _ _ _ _ _ he => by subst he; cases hp)

omit [Runtime] in
/-- The page is the last thing the route needs. -/
theorem listTransactions_fetched {i : Sid} {t : Request} {id u : Uuid} {L offset : Nat}
    {os : List LedgerObs} {p : Tx TransactionHistory} {ws : List Write}
    (h : Trail engine i t (Routes.listTransactions id L offset u) [] os p ws) {o : LedgerObs}
    (ho : o ∈ os) (hq : o.stmt = .selectEntries id L offset) (hok : o.ok = true) :
    p = .ret ⟨(shown o).map .ofEntry, L, offset⟩ := by
  have hother : ∀ {inp db aux b n}, o
    ∈ [(⟨i, t, .selectWallet id, inp, db, aux, b, n⟩ : LedgerObs)] →
      False := by
    intro inp db aux b n hmem
    rw [List.mem_singleton.mp hmem] at hq
    exact absurd hq (by simp)
  -- it reads the wallet, and raises unless there is one and it is the caller's
  rcases Trail.call_inv (q := Stmt.selectWallet id) h with ⟨rfl, -, -⟩
    | ⟨inp, db, aux, n, e, os', rfl, hrun, h⟩
  · exact absurd ho (by simp)
  have hrun : some (reads inp aux ((db.applyAll []).wallets.get id)) = some e := hrun
  have he := Option.some.inj hrun
  rcases reads_cases inp aux ((db.applyAll []).wallets.get id) with ⟨f, -, hf⟩ | ⟨-, hf⟩
  · rw [← he, hf] at h
    obtain ⟨rfl, -, -⟩ := Trail.raise_inv h
    exact (hother ho).elim
  rw [← he, hf] at h
  have h : Trail engine i t (raiseIf (∀ w ∈ (db.applyAll []).wallets.get id, w.userId ≠ u)
      Routes.walletNotFound >>= _) [] os' p ws := h
  unfold raiseIf at h
  split at h
  · obtain ⟨rfl, -, -⟩ := Trail.raise_inv h
    exact (hother ho).elim
  rcases Trail.call_inv (q := Stmt.selectEntries id L offset) h with
    ⟨rfl, -, -⟩ | ⟨inp', db', aux', n', e', os'', rfl, hrun', h⟩
  · exact (hother ho).elim
  have hrun' : some (readsChecked inp' aux' (checkOffset offset)
    ((db'.applyAll []).entriesPage id L offset))
      = some e' := hrun'
  have he' := Option.some.inj hrun'
  rcases readsChecked_cases inp' aux' (checkOffset offset)
    ((db'.applyAll []).entriesPage id L offset) with
    ⟨f, -, hf'⟩ | ⟨-, -, hf'⟩
  · -- a fetch that failed is not the one that was answered
    rw [← he', hf'] at h ho
    obtain ⟨rfl, -, -⟩ := Trail.raise_inv h
    rcases List.mem_pair.mp ho with rfl | rfl
    · exact absurd hq (by simp)
    · exact absurd hok Bool.false_ne_true
  · rw [← he', hf'] at h
    obtain ⟨rfl, hp, -⟩ := Trail.ret_inv h
    rcases List.mem_pair.mp ho with rfl | rfl
    · exact absurd hq (by simp)
    · exact hp

/-- A session is answered with a page, or has only to close. -/
def Shows (w : LedgerWorld) (i : Sid) (t : Request) (hist : TransactionHistory) : Prop :=
  ended w i = some (t, .ok (.history hist))
    ∨ ∃ k, w.sess i = some (t, .call .close k) ∧ k (.ok ()) = .ret (.history hist)

/-- **A page that was answered is what its call returns**, unless the process crashes. -/
theorem fetch_answers {w : LedgerWorld} (h : ReachableFrom .empty w) {o : LedgerObs}
    (ho : o ∈ w.store.trace) {id : Uuid} {L offset : Nat} (hq : o.stmt = .selectEntries id L offset)
    (hok : o.ok = true) (hlive : w.sess o.sid ≠ none) :
    ∃ u, Shows w o.sid (.listTransactions id L offset u) ⟨(shown o).map .ofEntry, L, offset⟩ := by
  obtain ⟨⟨t, p⟩, hs⟩ := Option.ne_none_iff_exists'.mp hlive
  obtain ⟨u, htag⟩ := fetch_tag h ho hq
  obtain rfl : o.tag = t := (h.signed.tags o.sid t p hs).2 o ho rfl
  rw [htag] at hs
  refine ⟨u, ?_⟩
  have htrail := h.trail.2 o.sid _ p hs rfl
  have hscript : o ∈ w.store.script o.sid := mem_script.mpr ⟨ho, rfl⟩
  -- wherever the route is after the fetch, it has its page in hand
  have hbody : ∀ {os ws} {p : Tx Reply}, Trail engine o.sid (.listTransactions id L offset u)
      (Reply.history <$> Routes.listTransactions id L offset u) [] os p ws → o ∈ os →
        p = .ret (.history ⟨(shown o).map .ofEntry, L, offset⟩) := by
    intro os ws p hmap hmem
    rcases Trail.handle_inv hmap with ⟨q, k, hlist, -⟩ | ⟨r, os₁, os₂, ws₁, rfl, hlist, hret⟩
    · exact absurd (listTransactions_fetched hlist hmem hq hok) (by simp)
    · cases r with
      | error x =>
          obtain ⟨rfl, -, -⟩ := Trail.raise_inv hret
          rw [List.append_nil] at hmem
          exact absurd (listTransactions_fetched hlist hmem hq hok) (by simp [Prog.ofExcept])
      | ok hist =>
          obtain ⟨rfl, hp, -⟩ := Trail.ret_inv hret
          rw [List.append_nil] at hmem
          cases listTransactions_fetched hlist hmem hq hok
          exact hp
  rcases Trail.handle_inv htrail with ⟨q, k, hmap, -⟩ | ⟨r, os₁, os₂, ws₁, hos, hmap, hclose⟩
  · exact absurd (hbody hmap hscript) (by simp)
  rw [hos] at hscript
  rcases Trail.call_inv (q := Stmt.close) hclose with
    ⟨rfl, rfl, -⟩ | ⟨inp, db, aux, n, e, os', rfl, hrun, hend⟩
  · rw [List.append_nil] at hscript
    refine .inr ⟨_, hs, ?_⟩
    cases r with
    | error x => exact absurd (hbody hmap hscript) (by simp [Prog.ofExcept])
    | ok reply =>
        cases hbody hmap hscript
        rfl
  · cases hrun
    obtain ⟨rfl, rfl, -⟩ := Trail.ofExcept_inv hend
    have hmem : o ∈ os₁ := by
      rcases List.mem_append.mp hscript with hmem | hmem
      · exact hmem
      · rw [List.mem_singleton.mp hmem] at hq
        exact absurd hq (by simp)
    refine .inl ?_
    cases r with
    | error x => exact absurd (hbody hmap hmem) (by simp [Prog.ofExcept])
    | ok reply =>
        cases hbody hmap hmem
        rw [ended, hs]
        rfl

/-- **No leg is skipped, and a walk in a quiet time is the whole statement.** Whatever commits
between the pages, a walk that finishes has shown every leg committed before its first page;
if nothing commits, it comes to an end, and its pages are the wallet's legs, each once, newest
first, and add up to its balance. What a call returns is its page, and every page that was answered
is returned. -/
theorem reachable_walk (w : LedgerWorld) (h : ReachableFrom .empty w) (id : Uuid) (L : Nat)
    (hL : 0 < L) (os : List LedgerObs) (hw : Walk w id L os) (o₀ : LedgerObs)
    (h₀ : os[0]? = some o₀) :
    (Finishes L os → ∀ e ∈ o₀.db.entriesOfWallet id, ∃ o ∈ os, e ∈ shown o)
      ∧ ((∀ o ∈ os, o.clock = o₀.clock) →
        os.length ≤ (o₀.db.entriesOfWallet id).length / L + 1
          ∧ (Finishes L os →
            (os.flatMap shown).Perm (o₀.db.entriesOfWallet id)
              ∧ (os.flatMap shown).Pairwise (fun a b => b.seq < a.seq)
              ∧ ∀ x, o₀.db.wallets.get id = some x →
                ((os.flatMap shown).map LedgerEntry.signedAmount).sum = x.availableBalance))
      ∧ (∀ i u offset hist,
        ended w i = some (.listTransactions id L offset u, .ok (.history hist)) →
          ∃ o ∈ w.store.script i, o.stmt = .selectEntries id L offset ∧ o.ok = true
            ∧ hist = ⟨(shown o).map .ofEntry, L, offset⟩)
      ∧ ∀ k o, os[k]? = some o → w.sess o.sid ≠ none →
        ∃ u, Shows w o.sid (.listTransactions id L (k * L) u)
          ⟨(shown o).map .ofEntry, L, k * L⟩ := by
  have hmem := hw.ran.subset (List.mem_of_getElem? h₀)
  refine ⟨fun hfin e he => hw.complete h hfin h₀ he, fun hquiet => ?_,
    fun i u offset hist hs => listTransactions_shown h hs, fun k o ho hlive => ?_⟩
  rotate_left
  · obtain ⟨hq, hok⟩ := hw.fetch k o ho
    exact fetch_answers h (hw.ran.subset (List.mem_of_getElem? ho)) hq hok hlive
  refine ⟨hw.length_le h hL h₀ hquiet, fun hfin => ?_⟩
  rw [hw.flatMap_shown h h₀ hquiet hfin]
  refine ⟨List.reverse_perm _, ?_, fun x hx => ?_⟩
  · rw [List.pairwise_reverse]
    exact met_ascending h hmem id
  · have hbooks : Books o₀.db := by
      rw [(h.past.2 o₀ hmem).2]
      exact Chain.books ((reachable_settled h).chain (Nat.zero_le o₀.clock)) books_empty
    rw [List.map_reverse, List.sum_reverse]
    exact (hbooks.balanced.signed hx).1.symm

/-- Two deposits; then the history is read in pages of one, and a third deposit commits after
the first page. -/
def shifting : List LedgerAction :=
  opening ++ [.spawn (.deposit 31 12 (depositOf 7))] ++ advance 5 14 70
    ++ [.spawn (.listTransactions 31 1 0 12)] ++ advance 6 3 0
    ++ [.spawn (.deposit 31 12 (depositOf 9))] ++ advance 7 14 90
    ++ [.spawn (.listTransactions 31 1 1 12)] ++ advance 8 3 0
    ++ [.spawn (.listTransactions 31 1 2 12)] ++ advance 9 3 0
    ++ [.spawn (.listTransactions 31 1 3 12)] ++ advance 10 3 0

/-- The fetches of a run. -/
def fetches (w : LedgerWorld) : List LedgerObs :=
  w.store.trace.filter (fun o => match o.stmt with
    | .selectEntries _ _ _ => true
    | _ => false)

omit [Runtime] in
/-- What makes some fetches a walk. -/
theorem Walk.of_fetches {w : LedgerWorld} {id : Uuid} {L : Nat} {os : List LedgerObs}
    (hsub : os.Sublist w.store.trace)
    (hfetch : os.map (fun o => (o.stmt, o.ok))
      = (List.range os.length).map (fun k => (.selectEntries id L (k * L), true)))
    (hfull : ∀ o ∈ os.dropLast, (shown o).length = L) : Walk w id L os := by
  refine ⟨hsub, fun k o ho => ?_, fun k o ho hk => ?_⟩
  · obtain ⟨hlt, -⟩ := List.getElem?_eq_some_iff.mp ho
    have hget := congrArg (fun l => l[k]?) hfetch
    simp only [List.getElem?_map, ho, Option.map_some, List.getElem?_range hlt, Option.some.injEq,
      Prod.mk.injEq] at hget
    exact hget
  · refine hfull o (List.mem_iff_getElem?.mpr ⟨k, ?_⟩)
    rw [List.getElem?_dropLast, if_pos (by omega)]
    exact ho

omit [Runtime] in
theorem shifting_walk : ∃ w os o₀, (@ReachableFrom plainRuntime .empty w ∧ Walk w 31 1 os
      ∧ Finishes 1 os ∧ os[0]? = some o₀
      ∧ (shown o₀).length = 1
      ∧ ended w o₀.sid
        = some (.listTransactions 31 1 0 12, .ok (.history ⟨(shown o₀).map .ofEntry, 1, 0⟩)))
    ∧ (Finishes 1 os → ∀ e ∈ o₀.db.entriesOfWallet 31, ∃ o ∈ os, e ∈ shown o)
    ∧ ((∀ o ∈ os, o.clock = o₀.clock) →
      os.length ≤ (o₀.db.entriesOfWallet 31).length / 1 + 1
        ∧ (Finishes 1 os →
          (os.flatMap shown).Perm (o₀.db.entriesOfWallet 31)
            ∧ (os.flatMap shown).Pairwise (fun a b => b.seq < a.seq)
            ∧ ∀ x, o₀.db.wallets.get 31 = some x →
              ((os.flatMap shown).map LedgerEntry.signedAmount).sum = x.availableBalance))
    ∧ (∀ i u offset hist,
      ended w i = some (.listTransactions 31 1 offset u, .ok (.history hist)) →
        ∃ o ∈ w.store.script i, o.stmt = .selectEntries 31 1 offset ∧ o.ok = true
          ∧ hist = ⟨(shown o).map .ofEntry, 1, offset⟩)
    ∧ ∀ k o, os[k]? = some o → w.sess o.sid ≠ none →
      ∃ u, Shows w o.sid (.listTransactions 31 1 (k * 1) u)
        ⟨(shown o).map .ofEntry, 1, k * 1⟩ := by
  obtain ⟨w, hr, hw⟩ := exists_runPlain .empty shifting (fun w =>
    (decide ((fetches w).map (fun o => (o.stmt, o.ok))
        = (List.range (fetches w).length).map (fun k => (Stmt.selectEntries 31 1 (k * 1), true))),
      (fetches w).dropLast.all (fun o => decide ((shown o).length = 1)),
      (fetches w).getLast?.map (fun o => (shown o).length),
      (fetches w)[0]?.map (fun o => ((shown o).length, decide (ended w o.sid
        = some (.listTransactions 31 1 0 12, .ok (.history ⟨(shown o).map .ofEntry, 1, 0⟩)))))))
    (v := (true, true, some 0, some (1, true))) (by decide +kernel)
  have hfetch := of_decide_eq_true (congrArg Prod.fst hw)
  have hfull := List.all_eq_true.mp (congrArg (fun x => x.2.1) hw)
  obtain ⟨d, hlast, hlen⟩ := Option.map_eq_some_iff.mp (congrArg (fun x => x.2.2.1) hw)
  have hwalk : Walk w 31 1 (fetches w) :=
    .of_fetches List.filter_sublist hfetch (fun o ho => of_decide_eq_true (hfull o ho))
  have hfin : Finishes 1 (fetches w) := ⟨d, hlast, by rw [hlen]; decide⟩
  cases hfirst : (fetches w)[0]? with
  | none =>
      rw [List.getElem?_eq_none_iff, Nat.le_zero, List.length_eq_zero_iff] at hfirst
      rw [hfirst] at hlast
      exact absurd hlast (by simp)
  | some o₀ =>
      have hreply := congrArg (fun x => x.2.2.2) hw
      simp only [hfirst, Option.map_some, Option.some.injEq, Prod.mk.injEq] at hreply
      exact ⟨w, fetches w, o₀,
        ⟨hr, hwalk, hfin, hfirst, hreply.1, of_decide_eq_true hreply.2⟩,
        @reachable_walk plainRuntime w hr 31 1 Nat.one_pos (fetches w) hwalk o₀ hfirst⟩

end WalletLedger
