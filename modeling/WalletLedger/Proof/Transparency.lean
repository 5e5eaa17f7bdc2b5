import WalletLedger.Isolation.Sequential
import WalletLedger.Proof.Freshness

/-!
# Requests one at a time

When requests are served one after the other, the cache cannot be told from the
database: every balance request is answered as if the cache were not there. All that
`Proof.Freshness` asks for is there for free, since nothing comes between the read
and the fill of a balance request, and every operation has deleted what it touched
before the next request starts.
-/

namespace WalletLedger

open Isolation Prog

variable [Runtime]

/-! ## The route without a cache -/

/-- The balance route with its cache taken out. -/
def uncachedBalance (walletId currentUser : Uuid) : Tx BalanceRead := do
  let wallet ← Routes.orNotFound (WalletService.getBalance walletId currentUser)
  pure (.ofWallet wallet)

/-- The request, served from the database alone. -/
def uncachedProgram (walletId currentUser : Uuid) : Tx Reply :=
  withSession (Reply.balance <$> uncachedBalance walletId currentUser)

omit [Runtime] in
theorem uncachedProgram_eq (id u : Uuid) :
    ∃ L, uncachedProgram id u = .call (.selectWallet id) L
      ∧ L (.ok none) = closing (.error Routes.walletNotFound)
      ∧ (∀ x, x.userId ≠ u → L (.ok (some x)) = closing (.error Routes.walletNotFound))
      ∧ ∀ x, x.userId = u → L (.ok (some x)) = closing (.ok (.balance (.ofWallet x))) := by
  refine ⟨_, rfl, rfl, fun x hx => ?_, fun x hx => ?_⟩
  · exact congrArg (fun p => withSession (Reply.balance <$> p)) (owned_foreign hx)
  · exact congrArg (fun p => withSession (Reply.balance <$> p)) (owned_own hx)

omit [Runtime] in
theorem runAlone_closing (i : Sid) (t : Request) (inp : Inp) (r : Except Exn Reply)
    (s : LedgerStore) :
    ∃ s', runAlone engine i t inp (closing r) s = some (r, s') := by
  have hrun : engine.run .close inp i (s.view engine i) s.aux
      = some { ctl := .abort, ans := .ok (), aux := s.aux } := rfl
  obtain ⟨s₁, hx⟩ := exec_lockFree (t := t) hrun rfl
  cases r with
  | ok a =>
      refine ⟨s₁, ?_⟩
      show runAlone engine i t inp (.call .close _) s = _
      rw [runAlone, hx]
      rfl
  | error e =>
      refine ⟨s₁, ?_⟩
      show runAlone engine i t inp (.call .close _) s = _
      rw [runAlone, hx]
      rfl

omit [Runtime] in
/-- **What the database alone answers.** -/
theorem runAlone_uncached {i : Sid} {s : LedgerStore} (hp : s.pending i = []) {inp : Inp}
    (hf : inp.fault = none) (t : Request) (id u : Uuid) :
    ∃ s', runAlone engine i t inp (uncachedProgram id u) s
      = some (balanceResponse s.db id u, s') := by
  obtain ⟨L, hprog, hnone, hforeign, hown⟩ := uncachedProgram_eq id u
  have hview : s.view engine i = s.db := by
    rw [Store.view, hp]
    rfl
  have hx : ∃ s₁, exec engine i t (.selectWallet id) inp s
      = some (.ok (s.db.wallets.get id), s₁) := by
    have hrun : engine.run (.selectWallet id) inp i (s.view engine i) s.aux
        = some { ans := .ok (s.db.wallets.get id), aux := s.aux } := by
      rw [hview]
      show some (reads inp s.aux (s.db.wallets.get id)) = _
      rw [reads, hf]
    exact exec_lockFree hrun rfl
  obtain ⟨s₁, hx⟩ := hx
  have hL : L (.ok (s.db.wallets.get id)) = closing (balanceResponse s.db id u) := by
    unfold balanceResponse
    cases hrow : s.db.wallets.get id with
    | none => exact hnone
    | some x =>
        by_cases hu : x.userId = u
        · exact (hown x hu).trans (congrArg closing (if_neg (not_not.mpr hu)).symm)
        · exact (hforeign x hu).trans (congrArg closing (if_pos hu).symm)
  rw [hprog, runAlone, hx]
  simp only [hL]
  exact runAlone_closing i t inp _ s₁

/-! ## Nothing comes in between -/

/-- The runs of the application, one request at a time. -/
abbrev GuidedFrom (db : Db) (w : LedgerWorld) : Prop :=
  Guided system (OneAtATime system) (LedgerStore.start db) w

theorem finished_ended {w : LedgerWorld} {i : Sid} (h : Finished system w i) :
    ∃ t r, ended w i = some (t, r) := by
  obtain ⟨t, r, hs, -⟩ := h
  refine ⟨t, r, ?_⟩
  simp only [ended, hs, Option.bind_some, outcome_ofExcept, Option.map_some]

omit [Runtime] in
theorem Request.touched_movesMoney {t : Request} {id : Uuid} (h : id ∈ t.touched) :
    t.movesMoney = true := by
  cases t with
  | deposit | transfer | withdraw => rfl
  | _ => exact absurd h (by simp [Request.touched])

/-- Every fill is in time. -/
theorem GuidedFrom.promptFills {db₀ : Db} {w : LedgerWorld} (h : GuidedFrom db₀ w) :
    PromptFills w := by
  intro k o ho id c hset r hr hrs hrq n c' hc' hn hid d hd hsid
  have hseq := h.sequential
  have hmem := List.mem_of_getElem? ho
  -- the commit comes from the session itself or a later one, the deletion from the session
  -- itself or an earlier one
  have hle : o.sid ≤ c'.sid := by
    rw [← hrs]
    exact hseq.commits r (List.mem_of_mem_take hr) n c' hc' hn
  have hge : d.sid ≤ o.sid := by
    have hsplit := List.take_append_drop k w.store.trace
    have horder := hseq.trace
    rw [← hsplit, List.pairwise_append] at horder
    refine horder.2.2 d hd o ?_
    obtain ⟨hk, he⟩ := List.getElem?_eq_some_iff.mp ho
    rw [List.drop_eq_getElem_cons hk, he]
    exact List.mem_cons_self
  have heq : d.sid = o.sid := Nat.le_antisymm hge (by rw [hsid]; exact hle)
  -- but a balance request deletes nothing
  rintro ⟨ids, hdel, -⟩
  have hfill := cache_calls h.reachable o hmem (by rw [hset]; rfl)
  have hcall := cache_calls h.reachable d (List.mem_of_mem_take hd) (by rw [hdel]; rfl)
  rw [hset] at hfill
  rw [hdel] at hcall
  obtain ⟨u, hu⟩ := hfill.fill
  obtain ⟨hmoney, -⟩ := hcall.delete
  have htag : d.tag = o.tag := h.reachable.same_tag (List.mem_of_mem_take hd) hmem heq
  rw [htag, hu] at hmoney
  exact absurd hmoney (by simp [Request.movesMoney])

/-! ## The entry is the row -/

/-- A row that no later commit touches stays. -/
theorem Settled.row_kept {db₀ : Db} {s : LedgerStore} (h : Settled db₀ s) {m : Nat} {id : Uuid}
    {x : Wallet} (hx : (s.past engine db₀ m).wallets.get id = some x)
    (hkeep : ∀ (n : Nat) (c : LedgerCommit), m ≤ n → s.commits[n]? = some c → id ∉ c.tag.touched)
    {n : Nat} (hmn : m ≤ n) (hn : n ≤ s.commits.length) :
    (s.past engine db₀ n).wallets.get id = some x := by
  induction n, hmn using Nat.le_induction with
  | base => exact hx
  | succ n hmn ih =>
      have hc : s.commits[n]? = some s.commits[n] := List.getElem?_eq_getElem hn
      rw [past_succ hc]
      exact (h.legal hc).framed.others id x (ih (Nat.le_of_lt hn)) (hkeep n _ hmn hc)

/-- A balance request commits nothing. -/
theorem Settled.getBalance_quiet {db₀ : Db} {s : LedgerStore} (h : Settled db₀ s) {n : Nat}
    {c : LedgerCommit} (hc : s.commits[n]? = some c) (id u : Uuid) : c.tag ≠ .getBalance id u := by
  intro ht
  have hlegal := h.legal hc
  rw [ht] at hlegal
  obtain ⟨mv, m, hmv, -⟩ := hlegal
  exact absurd hmv (by simp [Request.Moves])

section last

variable {db₀ : Db} {w : LedgerWorld} (h : GuidedFrom db₀ w) (hup : CacheUp w)
  (hread : ∀ j o, AfterCommit j w.store o → o.inp.fault = none) {i : Sid} (hi : i + 1 = w.next)
  {id u : Uuid} {r : Except Exn Reply} (hs : ended w i = some (.getBalance id u, r))

include h hup hread hi hs

/-- An entry that the last session has found is its wallet's present row. -/
theorem entry_current {k : Nat} {g : LedgerObs} (hg : w.store.trace[k]? = some g) (hgi : g.sid = i)
    {c : CachedBalance} (hc : g.aux.cache id = some c) :
    ∃ x, w.store.db.wallets.get id = some x ∧ c = .ofWallet x := by
  have hr : ReachableFrom db₀ w := h.reachable
  have hseq := h.sequential
  obtain ⟨p, hsess⟩ := ended_sess hs
  obtain ⟨m, hm, x, hx, rfl, hlast⟩ := (cache_fresh hr hup h.promptFills).2 k g hg id c hc
  refine ⟨x, ?_, rfl⟩
  rw [hr.past.1]
  refine (reachable_settled hr).row_kept hx (fun n c' hmn hc' hid => ?_) hm (Nat.le_refl _)
  -- whoever touched the wallet later has ended, and had deleted the entry before `g`
  have hmem := List.mem_of_getElem? hc'
  have hne : c'.sid ≠ i := by
    intro he
    rw [(hr.signed.tags i _ p hsess).1 c' hmem he] at hid
    exact absurd hid (by simp [Request.touched])
  have hlt : c'.sid < i := by
    have hborn := hr.signed.commits c' hmem
    rw [← hi] at hborn
    exact Nat.lt_of_le_of_ne (Nat.le_of_lt_succ hborn) hne
  obtain ⟨t, r', hend⟩ := finished_ended (hseq.done c'.sid (hi ▸ Nat.succ_lt_succ hlt))
  obtain ⟨p', hsess'⟩ := ended_sess hend
  have htag := (hr.signed.tags _ _ p' hsess').1 c' hmem rfl
  rw [htag] at hid
  obtain ⟨d, hd, hdel⟩ := committed_invalidated hr (Request.touched_movesMoney hid)
    hend (hread c'.sid)
    hmem rfl
  obtain ⟨hd, hdj⟩ := mem_script.mp hd
  refine hlast n c' hc' hmn (by rw [htag]; exact hid) d ?_ hdj ⟨_, hdel, hid⟩
  have horder := hseq.trace
  rw [← List.take_append_drop k w.store.trace, List.pairwise_append] at horder
  rw [← List.take_append_drop k w.store.trace, List.mem_append] at hd
  rcases hd with hd | hd
  · exact hd
  · -- `g` is the first of the rest
    obtain ⟨hk, he⟩ := List.getElem?_eq_some_iff.mp hg
    rw [List.drop_eq_getElem_cons hk, he] at hd horder
    have hle : g.sid ≤ d.sid := by
      rcases List.mem_cons.mp hd with rfl | hd
      · exact Nat.le_refl _
      · exact (List.pairwise_cons.mp horder.2.1).1 d hd
    rw [hgi, hdj] at hle
    exact absurd hlt (Nat.not_lt.mpr hle)

omit hup hread in
/-- What the last session, a balance request, has met is the present database. -/
theorem met_current {d : LedgerObs} (hd : d ∈ w.store.script i) : d.db = w.store.db := by
  have hr : ReachableFrom db₀ w := h.reachable
  obtain ⟨hmem, hdi⟩ := mem_script.mp hd
  obtain ⟨p, hsess⟩ := ended_sess hs
  obtain ⟨hle, hdb⟩ := hr.past.2 d hmem
  have hall : w.store.commits.length ≤ d.clock := by
    by_contra hlt
    have hlt : d.clock < w.store.commits.length := by omega
    have hc : w.store.commits[d.clock]? = some w.store.commits[d.clock] :=
      List.getElem?_eq_getElem hlt
    have hin := List.mem_of_getElem? hc
    have hge := h.sequential.commits d hmem d.clock _ hc (Nat.le_refl _)
    have hborn := hr.signed.commits _ hin
    rw [← hi] at hborn
    rw [hdi] at hge
    have hsid := Nat.le_antisymm (Nat.le_of_lt_succ hborn) hge
    exact (reachable_settled hr).getBalance_quiet hc id u
      ((hr.signed.tags i _ p hsess).1 _ hin hsid)
  rw [hdb, hr.past.1, Nat.le_antisymm hle hall]

/-- The last session is answered from the present database. -/
theorem last_response (hf : ∀ o ∈ w.store.script i, o.inp.fault = none) :
    r = balanceResponse w.store.db id u := by
  have hscript := getBalance_ended h.reachable hs
  have hmet : ∀ d ∈ w.store.script i, d.db = w.store.db := fun d hd => met_current h hi hs hd
  have hentry : ∀ g ∈ w.store.script i, ∀ c, g.aux.cache id = some c →
      ∃ x, w.store.db.wallets.get id = some x ∧ c = .ofWallet x := by
    intro g hg c hc
    obtain ⟨hmem, hgi⟩ := mem_script.mp hg
    obtain ⟨k, hk⟩ := List.getElem?_of_mem hmem
    exact entry_current h hup hread hi hs hk hgi hc
  generalize w.store.script i = os at hscript hf hmet hentry
  generalize hout : some r = out at hscript
  cases hscript with
  | start => exact absurd hout (by simp)
  | @hit g c os out get answered entry rest =>
      obtain ⟨x, hx, rfl⟩ := hentry g (by simp) c entry
      rcases rest with ⟨-, rfl⟩ | ⟨o, -, -, rfl⟩
      · exact absurd hout (by simp)
      · injection hout with hout
        rw [hout, balanceResponse, hx]
        rfl
  | missed => exact absurd hout (by simp)
  | @failed g d f os out get miss select fault rest =>
      exact absurd (hf d (by simp)) (by rw [fault]; simp)
  | @refused g d os out get miss select fault response rest =>
      rw [hmet d (by simp)] at response
      rcases rest with ⟨-, rfl⟩ | ⟨o, -, -, rfl⟩
      · exact absurd hout (by simp)
      · injection hout with hout
        rw [hout, response]
  | loaded => exact absurd hout (by simp)
  | @filled g d f x os out get miss select fault row owner set rest =>
      rw [hmet d (by simp)] at row
      rcases rest with ⟨-, rfl⟩ | ⟨o, -, -, rfl⟩
      · exact absurd hout (by simp)
      · injection hout with hout
        rw [hout, balanceResponse, row]
        exact (if_neg (not_not.mpr owner)).symm

end last

/-- **Served one at a time, every balance request is answered as the database alone would
answer it**, to owners and to everybody else. -/
theorem guided_transparent (db₀ : Db) (w : LedgerWorld) (h : GuidedFrom db₀ w) (hup : CacheUp w)
    (hread : ∀ j o, AfterCommit j w.store o → o.inp.fault = none) (i : Sid) (hi : i + 1 = w.next)
    (id u : Uuid) (r : Except Exn Reply) (hs : ended w i = some (.getBalance id u, r))
    (hf : ∀ o ∈ w.store.script i, o.inp.fault = none) (inp : Inp) (hinp : inp.fault = none) :
    ∃ s', runAlone engine w.next (.getBalance id u) inp (uncachedProgram id u) w.store
      = some (r, s') := by
  have hfree : w.store.pending w.next = [] := h.reachable.trail.1 w.next (Nat.le_refl _)
  rw [last_response h hup hread hi hs hf]
  exact runAlone_uncached hfree hinp (.getBalance id u) id u

omit [Runtime] in
/-- Where a list of requests leads that are served one at a time. -/
theorem exists_served {β : Type} (db : Db) (acts : List LedgerAction) (f : LedgerWorld → β) {v : β}
    (h : ((@system plainRuntime).serves (World.init (LedgerStore.start db)) acts).map f = some v) :
    ∃ w, @GuidedFrom plainRuntime db w ∧ f w = v := by
  obtain ⟨w, hw, hv⟩ := Option.map_eq_some_iff.mp h
  exact ⟨w, Guided.init.serves hw, hv⟩

/-- A balance is read, the balance changes, and it is read twice. -/
def consulted : List LedgerAction :=
  opening ++ [.spawn (.getBalance 31 12)] ++ advance 5 4 60
    ++ [.spawn (.deposit 31 12 (depositOf 50))] ++ advance 6 14 70
    ++ [.spawn (.getBalance 31 12)] ++ advance 7 4 90
    ++ [.spawn (.getBalance 31 12)] ++ advance 8 2 100

omit [Runtime] in
theorem consulted_transparent : ∃ w, (@GuidedFrom plainRuntime .empty w ∧ w.next = 9
    ∧ (w.store.script 8).map Obs.stmt = [.cacheGet 31, .close]
    ∧ ended w 8 = some (.getBalance 31 12, .ok (.balance ⟨31, "INR", 150, 0, 0⟩)))
    ∧ ∃ s', runAlone engine w.next (.getBalance 31 12) {} (uncachedProgram 31 12) w.store
      = some (.ok (.balance ⟨31, "INR", 150, 0, 0⟩), s') := by
  obtain ⟨w, hg, hv⟩ := exists_served .empty consulted (fun w =>
      ((w.store.script 8).map Obs.stmt, ended w 8, decide (w.next = 9)
        && w.store.trace.all (fun o => o.inp.fault.isNone && o.inp.cacheFault.isNone)))
    (v := ([.cacheGet 31, .close],
      some (.getBalance 31 12, .ok (.balance ⟨31, "INR", 150, 0, 0⟩)), true)) (by decide +kernel)
  have hs := congrArg (fun x => x.2.1) hv
  obtain ⟨hnext, hall⟩ := Bool.and_eq_true_iff.mp (congrArg (fun x => x.2.2) hv)
  have hnext := of_decide_eq_true hnext
  rw [List.all_eq_true] at hall
  have hfault : ∀ o ∈ w.store.trace, o.inp.fault = none := fun o ho =>
    Option.isNone_iff_eq_none.mp (Bool.and_eq_true_iff.mp (hall o ho)).1
  have hup : CacheUp w := fun o ho _ =>
    Option.isNone_iff_eq_none.mp (Bool.and_eq_true_iff.mp (hall o ho)).2
  exact ⟨w, ⟨hg, hnext, congrArg Prod.fst hv, hs⟩, @guided_transparent plainRuntime .empty w hg hup
    (fun j o ho => hfault o ho.mem) 8 hnext.symm 31 12 _ hs
    (fun o ho => hfault o (mem_script.mp ho).1) {} rfl⟩

end WalletLedger
