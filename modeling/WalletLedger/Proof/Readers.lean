import WalletLedger.Isolation.Progress
import WalletLedger.Proof.Locking

/-!
# Readers wait for nobody

A balance, a page of the history and the reconciliation report are read without a lock, so
they do not care who holds which: whatever the transfers, the registrations and the workers
beside them are at, a reader that is scheduled four times at most has ended. It has nothing
that anybody could wait for either. The four are its route's own: `get_current_user` has read
the account in the same session before.
-/

namespace WalletLedger

open Isolation Prog

/-- The requests that only read. -/
def Request.reads : Request → Bool
  | .getBalance _ _ | .listTransactions _ _ _ _ | .reconcile => true
  | _ => false

/-- The statements of those requests. -/
def Stmt.looks : Stmt → Bool
  | .selectWallet _ | .selectEntries _ _ _ | .selectLedgerBalances | .selectWallets | .cacheGet _
  | .cacheSetex _ _ | .close => true
  | _ => false

section statements

variable {inp : Inp} {o o' : Outside} {β : Type}

/-- A plain read takes nothing and leaves nothing, also if it fails. -/
theorem reads_looks (a : β) : (reads inp o a).locks = [] ∧ (reads inp o a).writes = []
    ∧ (reads inp o a).ctl ≠ .commit := by
  rcases reads_cases inp o a with ⟨e, -, h⟩ | ⟨-, h⟩
  · rw [h]
    exact ⟨rfl, rfl, by simp [failed]⟩
  · rw [h]
    exact ⟨rfl, rfl, by simp⟩

theorem readsChecked_looks (check : Option DbError) (a : β) :
    (readsChecked inp o check a).locks = []
    ∧ (readsChecked inp o check a).writes = [] ∧ (readsChecked inp o check a).ctl ≠ .commit := by
  rcases readsChecked_cases inp o check a with ⟨e, -, h⟩ | ⟨-, -, h⟩
  · rw [h]
    exact ⟨rfl, rfl, by simp [failed]⟩
  · rw [h]
    exact ⟨rfl, rfl, by simp⟩

theorem runCache_looks (a : β) :
    (runCache inp o o' a).locks = [] ∧ (runCache inp o o' a).writes = []
    ∧ (runCache inp o o' a).ctl ≠ .commit := by
  unfold runCache
  cases inp.cacheFault with
  | none => exact ⟨rfl, rfl, by simp⟩
  | some f => exact ⟨rfl, rfl, by simp⟩

end statements

theorem looks_spec {q : Stmt} (hq : q.looks = true) : engine.Looks q := by
  intro inp i db o
  cases q with
  | selectWallet id => exact ⟨_, rfl, reads_looks _⟩
  | selectEntries id limit offset => exact ⟨_, rfl, readsChecked_looks _ _⟩
  | selectLedgerBalances => exact ⟨_, rfl, reads_looks _⟩
  | selectWallets => exact ⟨_, rfl, reads_looks _⟩
  | cacheGet id => exact ⟨_, rfl, runCache_looks _⟩
  | cacheSetex id payload => exact ⟨_, rfl, runCache_looks _⟩
  | close => exact ⟨_, rfl, rfl, rfl, by simp⟩
  | _ => exact Bool.noConfusion hq

section requests

variable {β γ : Type}

/-- A reading request says no more than that. -/
theorem uses_looks [Runtime] {t : Request} (ht : t.reads = true) : t.program.Uses engine.Looks := by
  suffices h : t.program.Uses (fun q => q.looks = true) from h.mono (fun _ => looks_spec)
  cases t with
  | getBalance w u =>
      refine uses_withSession (Uses.mono (uses_getBalance w u) ?_) rfl
      rintro q (rfl | rfl | ⟨payload, rfl⟩) <;> rfl
  | listTransactions w limit offset u =>
      refine uses_withSession (Uses.mono (uses_listTransactions w limit offset u) ?_) rfl
      rintro q (rfl | rfl) <;> rfl
  | reconcile =>
      refine uses_withSession (Uses.mono uses_check ?_) rfl
      rintro q (rfl | rfl) <;> rfl
  | _ => exact Bool.noConfusion ht

theorem atMost_withSession {p : Tx β} {f : β → γ} {n : Nat} (hp : p.AtMost n) :
    (withSession (f <$> p)).AtMost (n + 1) := by
  refine AtMost.handle (AtMost.bind (n := 0) hp (fun _ => trivial)) (fun r => ?_)
  refine AtMost.step (n := 0) (fun _ => ?_)
  cases r with
  | ok a => trivial
  | error e => trivial

theorem atMost_orNotFound {p : Tx β} {n : Nat} (hp : p.AtMost n) :
    (Routes.orNotFound p).AtMost n := by
  refine AtMost.handle (n := 0) hp (fun r => ?_)
  cases r with
  | ok a => trivial
  | error e => cases e <;> trivial

/-- A look into the cache, one into the database, and what was found there put into the cache. -/
theorem atMost_getBalance (w u : Uuid) : (Routes.getBalance w u).AtMost 3 := by
  have hget : (BalanceCache.get w).AtMost 1 := by
    refine AtMost.bind (n := 0) (AtMost.handle (n := 0) .perform (fun _ => trivial)) (fun r => ?_)
    cases r with
    | ok payload => trivial
    | error e => trivial
  have hload : (Routes.orNotFound (WalletService.getBalance w u)).AtMost 1 := by
    refine atMost_orNotFound (AtMost.step (n := 0) (fun r => ?_))
    cases r with
    | none => trivial
    | some x => exact AtMost.bind (n := 0) (.raiseIf _ _) (fun _ => trivial)
  have hset : ∀ x : Wallet, (BalanceCache.set w (.ofWallet x)).AtMost 1 := by
    intro x
    have hput : (query (.cacheSetex w (.ofWallet x))).attempt.AtMost 1 := by
      refine AtMost.handle (m := 1) (n := 0) .perform ?_
      exact fun _ => trivial
    refine AtMost.bind (m := 1) (n := 0) hput ?_
    exact fun _ => trivial
  refine AtMost.bind (n := 2) hget (fun cached => ?_)
  cases cached with
  | some c =>
      refine AtMost.mono (m := 0) (AtMost.bind (m := 0) (n := 0) (.raiseIf _ _) ?_) (Nat.zero_le 2)
      exact fun _ => trivial
  | none =>
      refine AtMost.bind (m := 1) (n := 1) hload (fun x => ?_)
      exact AtMost.bind (m := 1) (n := 0) (hset x) (fun _ => trivial)

/-- **A reading request is four statements at most.** -/
theorem atMost_reads [Runtime] {t : Request} (ht : t.reads = true) : t.program.AtMost 4 := by
  cases t with
  | getBalance w u => exact atMost_withSession (atMost_getBalance w u)
  | listTransactions w limit offset u =>
      have hlist : (Routes.listTransactions w limit offset u).AtMost 2 := by
        refine .step (n := 1) (fun _ => AtMost.bind (m := 0) (n := 1) (.raiseIf _ _) (fun _ => ?_))
        exact .step (n := 0) (fun _ => trivial)
      exact (atMost_withSession hlist).mono (by decide)
  | reconcile =>
      have hcheck : ReconciliationService.check.AtMost 2 := by
        refine .step (n := 1) (fun _ => ?_)
        exact .step (n := 0) (fun _ => trivial)
      exact (atMost_withSession hcheck).mono (by decide)
  | _ => exact Bool.noConfusion ht

end requests

variable [Runtime]

omit [Runtime] in
theorem ended_of_sess {w : LedgerWorld} {i : Sid} {t : Request} {r : Except Exn Reply}
    (hs : w.sess i = some (t, ofExcept r)) : ended w i = some (t, r) := by
  unfold ended
  rw [hs]
  cases r <;> rfl

/-- **Readers wait for nobody, and nobody for them.** However far a reading request has got, and
whatever is going on beside it, it holds nothing and has written nothing; and left to itself, with
any answers, it comes to an end, four statements after its start at the latest, with the database
as it was. -/
theorem reachable_unhindered (db₀ : Db) (w : LedgerWorld) (h : ReachableFrom db₀ w)
    (i : Sid) (t : Request)
    (p : Tx Reply) (hs : w.sess i = some (t, p)) (ht : t.reads = true) :
    Idle i w.store
    ∧ ∀ f : Nat → Inp, ∃ n w' r, (w.store.script i).length + n ≤ 4
      ∧ system.runs w ((List.range n).map (fun k => .exec i (f k))) = some w'
        ∧ ended w' i = some (t, r)
      ∧ w'.store.db = w.store.db := by
  have hagain : t.next = none := by
    cases t with
    | analyticsConsumer => exact Bool.noConfusion ht
    | _ => rfl
  have htrail := h.trail.2 i t p hs hagain
  obtain ⟨hidle, huses⟩ := h.looks hs hagain (uses_looks ht)
  have hlen := htrail.length_le (atMost_reads ht)
  refine ⟨hidle, fun f => ?_⟩
  obtain ⟨n, w', r, hn, hruns, hsess, hdb⟩ := runs_looking hs huses
    (htrail.atMost (atMost_reads ht)) f
  exact ⟨n, w', r, by omega, hruns, ended_of_sess hsess, hdb⟩


omit [Runtime] in
/-- The balance of a wallet that a transfer has locked. -/
theorem locked_unhindered : ∃ w p, (@ReachableFrom plainRuntime .empty w
    ∧ w.sess 7 = some (.getBalance 31 12, p) ∧ (.wallet 31, 5) ∈ w.store.locks)
    ∧ Idle 7 w.store
    ∧ ∀ f : Nat → Inp, ∃ n w' r, (w.store.script 7).length + n ≤ 4
      ∧ (@system plainRuntime).runs w ((List.range n).map (fun k => .exec 7 (f k))) = some w'
      ∧ ended w' 7 = some (.getBalance 31 12, r) ∧ w'.store.db = w.store.db := by
  obtain ⟨w, hr, hw⟩ := exists_runPlain .empty (opposed ++ [.spawn (.getBalance 31 12)]) (fun w =>
    ((w.sess 7).map Prod.fst, decide ((.wallet 31, 5) ∈ w.store.locks)))
    (v := (some (.getBalance 31 12), true)) (by decide +kernel)
  have hlock := of_decide_eq_true (congrArg Prod.snd hw)
  obtain ⟨⟨t, p⟩, hsess, rfl⟩ := Option.map_eq_some_iff.mp (congrArg Prod.fst hw)
  exact ⟨w, p, ⟨hr, hsess, hlock⟩, @reachable_unhindered plainRuntime .empty w hr 7 _ p hsess rfl⟩

end WalletLedger
