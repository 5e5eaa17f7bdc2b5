import WalletLedger.Proof.Cache

/-!
# How old a cached balance can be

A money operation commits, deletes the entries of the wallets it has touched, and
answers. A balance request reads the row, fills the cache with it, and answers.
Between the read and the fill anything may happen, and there is one order in which
the entry outlives the balance it holds: read, commit, delete, fill. Whoever asks
after that is told the old balance, although the operation has been answered.

`Prompt` excludes exactly that order, and then an entry is never older than the
last operation that has deleted it.
-/

namespace WalletLedger

open Isolation Prog

variable [Runtime]

/-! ## A money operation deletes last -/

omit [Runtime] in
theorem invalidate_ended {i : Sid} {t : Request} {ids : List Uuid} {ws ws' : List Write}
    {os : List LedgerObs} {r : Except Exn Unit} (hids : ids ≠ [])
    (h : Trail engine i t (BalanceCache.invalidate ids) ws os (ofExcept r) ws') :
    ∃ o ∈ os, o.stmt = .cacheDelete ids := by
  unfold BalanceCache.invalidate at h
  rw [if_neg hids] at h
  have hcall : ∀ {os : List LedgerObs} {r : Except Exn (Except Exn Unit)} {ws' : List Write},
      Trail engine i t (query (.cacheDelete ids)).attempt ws os (ofExcept r) ws' →
      ∃ o ∈ os, o.stmt = .cacheDelete ids := by
    intro os r ws' h
    obtain ⟨r', os₁, os₂, ws₁, rfl, h₁, -⟩ := h.handle_ended
    obtain ⟨inp, db, aux, n, e, rfl, -⟩ := h₁.perform_ended
    exact ⟨_, List.mem_cons_self, rfl⟩
  rcases h.bind_ended with ⟨e, h₁, -⟩ | ⟨a, os₁, os₂, ws₁, rfl, h₁, -⟩
  · exact hcall h₁
  · obtain ⟨o, ho, hq⟩ := hcall h₁
    exact ⟨o, List.mem_append_left _ ho, hq⟩

/-- **An operation that has been answered has deleted what it touched.** -/
theorem invalidated {db₀ : Db} {w : LedgerWorld} (h : ReachableFrom db₀ w) {j : Sid} {t : Request}
    (ht : t.movesMoney = true) {r : Reply} (hs : ended w j = some (t, .ok r)) :
    ∃ o ∈ w.store.script j, o.stmt = .cacheDelete t.touched := by
  have hids : t.touched ≠ [] := by
    cases t with
    | deposit | transfer | withdraw => simp [Request.touched]
    | _ => exact absurd ht (by simp [Request.movesMoney])
  obtain ⟨ws, htrail⟩ := ended_trail h hs (Request.next_money ht)
  obtain ⟨p, -, hprog⟩ := Request.program_money ht
  rw [hprog] at htrail
  obtain ⟨os, o, ws₁, hos, -, h₁⟩ := withSession_ended htrail
  obtain ⟨r', h₂, hr⟩ := h₁.map_ended
  -- what is answered is answered after the invalidation
  have hdel : ∃ o ∈ os, o.stmt = .cacheDelete t.touched := by
    rcases h₂.bind_ended with ⟨e, -, rfl⟩ | ⟨a, os₁, os₂, ws₂, rfl, -, h₃⟩
    · exact absurd hr (by simp [Except.map])
    rcases h₃.bind_ended with ⟨e, h₄, -⟩ | ⟨b, os₃, os₄, ws₃, rfl, h₄, -⟩
    · obtain ⟨o, ho, hq⟩ := invalidate_ended hids h₄
      exact ⟨o, List.mem_append_right _ ho, hq⟩
    · obtain ⟨o, ho, hq⟩ := invalidate_ended hids h₄
      exact ⟨o, List.mem_append_right _ (List.mem_append_left _ ho), hq⟩
  obtain ⟨o', ho', hq⟩ := hdel
  exact ⟨o', by rw [hos]; exact List.mem_append_left _ ho', hq⟩

/-- After its deletion a money operation commits no more. -/
theorem program_deletes_last {t : Request} (ht : t.movesMoney = true) :
    t.program.Seals (fun q => q.area = .cache) (fun q => q ≠ .commit) := by
  obtain ⟨p, hp, hprog⟩ := Request.program_money ht
  rw [hprog]
  have hwork : Seals (fun q : Stmt => q.area = .cache) (fun q => q ≠ .commit) (do
      let r ← p
      BalanceCache.invalidate t.touched
      pure r) := by
    refine Seals.handle (hp.cacheless (by simp)) (fun r => ?_)
    cases r with
    | error e => trivial
    | ok a =>
        refine .ofUses (.bind (uses_invalidate (by simp)) (fun _ => ?_))
        trivial
  refine Seals.followed (hwork.followed (fun r => ?_)) (fun r => ?_)
  · cases r with
    | ok a => trivial
    | error e => trivial
  · exact .bind (.perform (by simp)) (fun _ => .ofExcept r)

/-- **Deletions come after the commits of their session.** -/
theorem deletes_late {db₀ : Db} {w : LedgerWorld} (h : ReachableFrom db₀ w) {n : Nat}
    {c : LedgerCommit} (hc : w.store.commits[n]? = some c) {d : LedgerObs} (hd : d ∈ w.store.trace)
    (hsid : d.sid = c.sid) {ids : List Uuid} (hdel : d.stmt = .cacheDelete ids) : n < d.clock := by
  induction h with
  | init => exact absurd hd (by simp [World.init, LedgerStore.start, Store.init])
  | tail hr hs ih =>
      rename_i w₁ w₂ a
      rcases step_cases hs with ⟨t, -, rfl⟩ | ⟨i, inp, t, q, k, r, s', -, hsess, hx, rfl⟩
        | ⟨i, inp, t, x, p, -, -, -, rfl⟩ | ⟨i, x, -, -, rfl⟩ | ⟨x, o, -, -, rfl⟩
      · exact ih hc hd
      · have hd : d ∈ s'.trace := hd
        have hc : s'.commits[n]? = some c := hc
        rw [exec_trace hx, List.mem_append] at hd
        by_cases hq : q = .commit
        · subst hq
          rcases hd with hd | hd
          · obtain ⟨l, hl, -, hnew⟩ := exec_history hx
            rw [hl] at hc
            by_cases hn : n < w₁.store.commits.length
            · rw [List.getElem?_append_left hn] at hc
              exact ih hc hd
            · -- the session commits now, and has deleted before: its program excludes that
              rw [List.getElem?_append_right (by omega)] at hc
              obtain ⟨hci, -⟩ := hnew c (List.mem_of_getElem? hc)
              have hdi : d.sid = i := hsid.trans hci
              have htag := (hr.signed.tags i t _ hsess).2 d hd hdi
              have hcall := cache_calls hr d hd (by rw [hdel]; rfl)
              rw [hdel, htag] at hcall
              have ht := hcall.delete.1
              have hrest := (hr.trail.2 i t _ hsess (Request.next_money ht)).seals
                (program_deletes_last ht)
                ⟨d, mem_script.mpr ⟨hd, hdi⟩, by rw [hdel]; rfl⟩
              exact absurd rfl hrest.1
          · rw [List.mem_singleton.mp hd] at hdel
            exact absurd hdel (by simp)
        · obtain ⟨_, -, -, -, -, hsame, -⟩ := exec_quiet hx hq
          rw [hsame] at hc
          rcases hd with hd | hd
          · exact ih hc hd
          · rw [List.mem_singleton.mp hd]
            exact (List.getElem?_eq_some_iff.mp hc).1
      · exact ih hc hd
      · exact ih hc hd
      · exact ih hc hd

/-! ## Filling in time -/

/-- The call `o`, if it fills the cache, is not too late: no commit that its read has
missed has been followed by its deletion yet. -/
def Prompt (cs : List LedgerCommit) (pre : List LedgerObs) (o : LedgerObs) : Prop :=
  ∀ id c, o.stmt = .cacheSetex id c → ∀ r ∈ pre, r.sid = o.sid → r.stmt = .selectWallet id →
    ∀ n c', cs[n]? = some c' → r.clock ≤ n → id ∈ c'.tag.touched →
      ∀ d ∈ pre, d.sid = c'.sid → ¬Obs.Deletes d id

/-- Every fill of a run was in time. -/
def PromptFills (w : LedgerWorld) : Prop :=
  ∀ k o, w.store.trace[k]? = some o → Prompt w.store.commits (w.store.trace.take k) o

/-- No call of the cache has failed. -/
def CacheUp (w : LedgerWorld) : Prop :=
  ∀ o ∈ w.store.trace, o.stmt.area = .cache → o.inp.cacheFault = none

omit [Runtime] in
theorem PromptFills.before {w w' : LedgerWorld} (h : PromptFills w') {cs : List LedgerCommit}
    {os : List LedgerObs} (hcs : w'.store.commits = w.store.commits ++ cs)
    (hos : w'.store.trace = w.store.trace ++ os) : PromptFills w := by
  intro k o ho id c hset r hr hrs hrq n c' hc' hn hid d hd
  have hk : k < w.store.trace.length := (List.getElem?_eq_some_iff.mp ho).1
  have hlt : n < w.store.commits.length := (List.getElem?_eq_some_iff.mp hc').1
  have hfill := h k o (by rw [hos, List.getElem?_append_left hk]; exact ho) id c hset
  rw [hos, List.take_append_of_le_length (Nat.le_of_lt hk), hcs] at hfill
  exact hfill r hr hrs hrq n c' (by rw [List.getElem?_append_left hlt]; exact hc') hn hid d hd

/-- A row the wallet has had, and none of the operations that came after it is among those
that have deleted the entry. -/
def FreshIn (db₀ : Db) (s : LedgerStore) (tr : List LedgerObs) (id : Uuid)
    (c : CachedBalance) : Prop :=
  ∃ m ≤ s.commits.length, ∃ x, (s.past engine db₀ m).wallets.get id = some x ∧ c = .ofWallet x
    ∧ ∀ n c', s.commits[n]? = some c' → m ≤ n → id ∈ c'.tag.touched →
      ∀ d ∈ tr, d.sid = c'.sid → ¬Obs.Deletes d id

/-- New commits have not deleted anything yet. -/
theorem FreshIn.later {db₀ : Db} {w w' : LedgerWorld} (hr : ReachableFrom db₀ w')
    {cs : List LedgerCommit} (hcs : w'.store.commits = w.store.commits ++ cs) {tr : List LedgerObs}
    (htr : ∀ d ∈ tr, d ∈ w'.store.trace ∧ d.clock ≤ w.store.commits.length) {id : Uuid}
    {c : CachedBalance} (h : FreshIn db₀ w.store tr id c) : FreshIn db₀ w'.store tr id c := by
  obtain ⟨m, hm, x, hx, rfl, hlast⟩ := h
  refine ⟨m, by rw [hcs, List.length_append]; omega, x,
    by rw [past_append hcs hm]; exact hx, rfl, ?_⟩
  intro n c' hc' hn hid d hd hsid
  by_cases hlt : n < w.store.commits.length
  · rw [hcs, List.getElem?_append_left hlt] at hc'
    exact hlast n c' hc' hn hid d hd hsid
  · rintro ⟨ids, hdel, -⟩
    have hlate := deletes_late hr hc' (htr d hd).1 hsid hdel
    have := (htr d hd).2
    omega

/-- **Every entry is fresh**, now and whenever a statement was executed, if the cache
answers and every fill is in time. -/
theorem cache_fresh {db₀ : Db} {w : LedgerWorld} (h : ReachableFrom db₀ w) (hup : CacheUp w)
    (hprompt : PromptFills w) :
    (∀ id c, w.store.aux.cache id = some c → FreshIn db₀ w.store w.store.trace id c)
    ∧ ∀ k o, w.store.trace[k]? = some o → ∀ id c, o.aux.cache id = some c →
        FreshIn db₀ w.store (w.store.trace.take k) id c := by
  induction h with
  | init =>
      refine ⟨fun id c hc => ?_, fun k o ho => ?_⟩
      · exact absurd hc (by simp [World.init, LedgerStore.start, Store.init, Outside.init])
      · exact absurd ho (by simp [World.init, LedgerStore.start, Store.init])
  | tail hr hs ih =>
      rename_i w₁ w₂ a
      have hr₂ : ReachableFrom db₀ w₂ := hr.tail hs
      obtain ⟨cs, os, hcs, hos, -, hmet, -⟩ := step_history hs
      obtain ⟨hnow, hthen⟩ := ih (fun o ho => hup o (by rw [hos]; exact List.mem_append_left _ ho))
        (hprompt.before hcs hos)
      -- everything recorded so far was executed before the new commits
      have hearly : ∀ d ∈ w₂.store.trace, d ∈ w₂.store.trace
          ∧ d.clock ≤ w₁.store.commits.length := by
        intro d hd
        refine ⟨hd, ?_⟩
        rw [hos, List.mem_append] at hd
        rcases hd with hd | hd
        · exact (hr.past.2 d hd).1
        · exact Nat.le_of_eq (hmet d hd).2.2
      have hearly₁ : ∀ d ∈ w₁.store.trace, d ∈ w₂.store.trace ∧ d.clock ≤ w₁.store.commits.length :=
        fun d hd => hearly d (by rw [hos]; exact List.mem_append_left _ hd)
      constructor
      · intro id c hc
        obtain ⟨os', hos', hcache⟩ := step_cache hs
        rcases hcache id c hc with ⟨hold, hkeep⟩ | ⟨o, p, rfl, hset, hsess⟩
        · refine FreshIn.later hr₂ hcs hearly ?_
          obtain ⟨m, hm, x, hx, rfl, hlast⟩ := hnow id c hold
          refine ⟨m, hm, x, hx, rfl, fun n c' hc' hn hid d hd hsid => ?_⟩
          rw [hos', List.mem_append] at hd
          rcases hd with hd | hd
          · exact hlast n c' hc' hn hid d hd hsid
          · intro hdel
            refine hkeep d hd (hup d ?_ ?_) hdel
            · rw [hos']
              exact List.mem_append_right _ hd
            · obtain ⟨ids, hq, -⟩ := hdel
              rw [hq]
              rfl
        · -- a fill: as old as its read, and in time
          have ho : o ∈ w₂.store.trace := by rw [hos']; simp
          obtain ⟨u, -, d, hd, x, hsel, -, hx, -, rfl⟩ := fill_read hr₂ ho hset hsess
          obtain ⟨hd, hdsid⟩ := mem_script.mp hd
          obtain ⟨hclock, hdb⟩ := hr₂.past.2 d hd
          refine ⟨d.clock, hclock, x, by rw [← system_toEngine, ← hdb]; exact hx, rfl, ?_⟩
          intro n c' hc' hn hid d' hd' hsid hdel
          have hin : ∀ e ∈ w₂.store.trace, e.stmt ≠ .cacheSetex id (.ofWallet x) →
              e ∈ w₁.store.trace := by
            intro e he hne
            rw [hos', List.mem_append] at he
            rcases he with he | he
            · exact he
            · rw [List.mem_singleton.mp he] at hne
              exact absurd hset hne
          have hat := hprompt w₁.store.trace.length o (by rw [hos']; simp)
          rw [hos', List.take_left] at hat
          refine hat id _ hset d (hin d hd (by rw [hsel]; simp)) hdsid hsel n c' hc' hn hid d'
            (hin d' hd' ?_) hsid hdel
          obtain ⟨ids, hq, -⟩ := hdel
          rw [hq]
          simp
      · refine step_moments (P := fun pre o => ∀ id c, o.aux.cache id = some c →
          FreshIn db₀ w₂.store pre id c) hs (fun k o ho id c hc => ?_) (fun o ho id c hc => ?_)
        · exact (hthen k o ho id c hc).later hr₂ hcs
            (fun d hd => hearly₁ d (List.mem_of_mem_take hd))
        · have hmem : o ∈ os := by
            rw [hos] at ho
            rw [List.append_cancel_left ho]
            simp
          rw [(hmet o hmem).2.1] at hc
          exact (hnow id c hc).later hr₂ hcs hearly₁

/-! ## Reading after an answer -/

/-- Who asks after `w₁` is told no balance older than what an operation that has ended by
then has committed. -/
def ReadsAnswered (db₀ : Db) (w₁ w₂ : LedgerWorld) : Prop :=
  ∀ j t r n c, t.movesMoney = true → ended w₁ j = some (t, r) → w₁.store.commits[n]? = some c →
    c.sid = j → ∀ id ∈ t.touched, ∀ i u b, w₁.next ≤ i →
      ended w₂ i = some (.getBalance id u, .ok b) →
        ∃ m, n < m ∧ m ≤ w₂.store.commits.length ∧ ∃ x,
          (w₂.store.past engine db₀ m).wallets.get id = some x ∧ b = .balance (.ofWallet x)

/-- An operation that has committed and ended has deleted the entries, unless its
read-back failed. -/
theorem committed_invalidated {db₀ : Db} {w : LedgerWorld} (h : ReachableFrom db₀ w) {j : Sid}
    {t : Request} (ht : t.movesMoney = true) {r : Except Exn Reply} (hs : ended w j = some (t, r))
    (hread : ∀ o, AfterCommit j w.store o → o.inp.fault = none) {c : LedgerCommit}
    (hc : c ∈ w.store.commits) (hcj : c.sid = j) :
    ∃ o ∈ w.store.script j, o.stmt = .cacheDelete t.touched := by
  cases r with
  | ok a => exact invalidated h ht hs
  | error e =>
      cases reachable_moved h ht hs with
      | raised _ quiet =>
          rcases quiet with hq | ⟨o, ho, hf⟩
          · exact absurd hcj (hq c hc)
          · exact absurd (hread o ho) hf

/-- **Balances are up to date with every operation answered before the request**, if the
cache answers, every fill is in time, and no operation fails to read back what it has
committed. -/
theorem reachable_fresh (db₀ : Db) (w₁ w₂ : LedgerWorld) (h : ReachableFrom db₀ w₁)
    (hl : Later system w₁ w₂) (hup : CacheUp w₂) (hprompt : PromptFills w₂)
    (hread : ∀ j t r, t.movesMoney = true → ended w₁ j = some (t, r) →
      ∀ o, AfterCommit j w₁.store o → o.inp.fault = none) : ReadsAnswered db₀ w₁ w₂ := by
  intro j t r n c ht hj hc hcj id hid i u b hi hs
  have h₂ : ReachableFrom db₀ w₂ := h.later hl
  have hn : n < w₁.store.commits.length := (List.getElem?_eq_some_iff.mp hc).1
  have htag : c.tag = t := by
    obtain ⟨p, hsess⟩ := ended_sess hj
    exact (h.signed.tags j t p hsess).1 c (List.mem_of_getElem? hc) hcj
  rcases (getBalance_ended h₂ hs).answered with ⟨g, hg, e, -, -, he, -, rfl⟩
    | ⟨d, hd, x, -, -, hx, -, rfl⟩
  · -- a hit: the entry has outlived the deletion, so it was read after the commit
    obtain ⟨-, os, hos, hgos⟩ := hl.script h hi hg
    obtain ⟨k, hk⟩ := List.getElem?_of_mem hgos
    have hat : w₂.store.trace[w₁.store.trace.length + k]? = some g := by
      rw [hos, List.getElem?_append_right (Nat.le_add_right _ _), Nat.add_sub_cancel_left]
      exact hk
    obtain ⟨m, hm, x, hx, rfl, hlast⟩ := (cache_fresh h₂ hup hprompt).2 _ g hat id e he
    refine ⟨m, ?_, hm, x, hx, rfl⟩
    by_contra hle
    obtain ⟨d, hd, hdel⟩ := committed_invalidated h ht hj (hread j t r ht hj)
      (List.mem_of_getElem? hc) hcj
    obtain ⟨hd, hdj⟩ := mem_script.mp hd
    obtain ⟨cs, -, hcs, -⟩ := hl.history
    have hpre : d ∈ w₂.store.trace.take (w₁.store.trace.length + k) := by
      rw [hos, List.take_append]
      exact List.mem_append_left _ (by rw [List.take_of_length_le (Nat.le_add_right _ _)]; exact hd)
    refine hlast n c ?_ (by omega) (by rw [htag]; exact hid) d hpre (hdj.trans hcj.symm)
      ⟨_, hdel, hid⟩
    rw [hcs, List.getElem?_append_left hn]
    exact hc
  · -- a miss: the row as it was some time after the request started
    obtain ⟨hclock, -⟩ := hl.script h hi hd
    obtain ⟨hle, hdb⟩ := h₂.past.2 d (mem_script.mp hd).1
    exact ⟨d.clock, by omega, hle, x, by rw [← system_toEngine, ← hdb]; exact hx, rfl⟩

/-- Two balance requests, one after the other. -/
def askTwice : List LedgerAction :=
  [.spawn (.getBalance 31 12)] ++ advance 5 4 60 ++ [.spawn (.getBalance 31 12)] ++ advance 6 2 70

omit [Runtime] in
/-- Fills are in time when everything was read after the last commit. -/
theorem PromptFills.ofReads {w : LedgerWorld} (h : ∀ o ∈ w.store.trace,
    ∀ id, o.stmt = .selectWallet id → w.store.commits.length ≤ o.clock) : PromptFills w := by
  intro k o ho id c hset r hr hrs hrq n c' hc' hn
  have hlt := (List.getElem?_eq_some_iff.mp hc').1
  have hle := h r (List.mem_of_mem_take hr) id hrq
  omega

/-- Whether a statement reads a wallet, for the check by computation. -/
def Stmt.readsWallet : Stmt → Bool
  | .selectWallet _ => true
  | _ => false

omit [Runtime] in
theorem askTwice_fresh : ∃ w₁ w₂, (@ReachableFrom plainRuntime .empty w₁
    ∧ Later (@system plainRuntime) w₁ w₂ ∧ CacheUp w₂ ∧ PromptFills w₂
    ∧ (w₁.store.commits[4]?).map Commit.sid = some 4
    ∧ ended w₂ 6 = some (.getBalance 31 12, .ok (.balance ⟨31, "INR", 100, 0, 0⟩)))
    ∧ ReadsAnswered .empty w₁ w₂ := by
  obtain ⟨w₁, w₂, h, hl, hw⟩ := exists_laterPlain .empty opening askTwice
    (fun w₁ w₂ => ((w₁.store.commits[4]?).map Commit.sid, ended w₂ 6,
      w₁.store.trace.all (fun o => o.inp.fault.isNone)
        && w₂.store.trace.all (fun o => o.inp.cacheFault.isNone
          && (!o.stmt.readsWallet || decide (w₂.store.commits.length ≤ o.clock)))))
    (v := (some 4, some (.getBalance 31 12, .ok (.balance ⟨31, "INR", 100, 0, 0⟩)), true))
    (by decide +kernel)
  obtain ⟨hfault, hall⟩ := Bool.and_eq_true_iff.mp (congrArg (fun x => x.2.2) hw)
  rw [List.all_eq_true] at hfault hall
  have hup : CacheUp w₂ := by
    intro o ho _
    exact Option.isNone_iff_eq_none.mp (Bool.and_eq_true_iff.mp (hall o ho)).1
  have hprompt : PromptFills w₂ := by
    refine .ofReads (fun o ho id hq => ?_)
    have hread := (Bool.and_eq_true_iff.mp (hall o ho)).2
    rw [hq] at hread
    simpa [Stmt.readsWallet] using hread
  exact ⟨w₁, w₂, ⟨h, hl, hup, hprompt, congrArg Prod.fst hw, congrArg (fun x => x.2.1) hw⟩,
    @reachable_fresh plainRuntime .empty w₁ w₂ h hl hup hprompt (fun j t r _ _ o ho =>
      Option.isNone_iff_eq_none.mp (hfault o ho.mem))⟩

/-- A balance request has read the row; a deposit runs from start to end. -/
def overtaken : List LedgerAction :=
  opening ++ [.spawn (.getBalance 31 12)] ++ advance 5 2 60
    ++ [.spawn (.deposit 31 12 (depositOf 50))] ++ advance 6 14 70

/-- It fills the cache; another one is answered from there. -/
def stale : List LedgerAction := advance 5 2 90 ++ [.spawn (.getBalance 31 12)] ++ advance 7 2 100

omit [Runtime] in
/-- The deposit has been answered with 150, and the balance is still reported as 100. -/
theorem stale_reported : ∃ w₁ w₂, @ReachableFrom plainRuntime .empty w₁
    ∧ Later (@system plainRuntime) w₁ w₂ ∧ CacheUp w₂ ∧ (∀ o ∈ w₂.store.trace, o.inp.fault = none)
    ∧ ended w₁ 6 = some (.deposit 31 12 ⟨50, "INR", by decide, by decide⟩,
        .ok (.moved ⟨71, .deposit, .completed, "INR", none⟩ (some ⟨31, 12, "INR", 150, 0, 0, 0⟩)))
    ∧ ended w₂ 7 = some (.getBalance 31 12, .ok (.balance ⟨31, "INR", 100, 0, 0⟩))
    ∧ ¬ReadsAnswered .empty w₁ w₂ := by
  obtain ⟨w₁, w₂, h, hl, hw⟩ := exists_laterPlain .empty overtaken stale
    (fun w₁ w₂ => (ended w₁ 6, ended w₂ 7,
      decide (w₁.next = 7 ∧ (w₁.store.commits[5]?).map Commit.sid = some 6
        ∧ w₂.store.commits.length = 6 ∧ w₂.store.db.wallets.get 31
          = some ⟨31, 12, "INR", 150, 0, 0, 0⟩)
      && w₂.store.trace.all (fun o => o.inp.fault.isNone && o.inp.cacheFault.isNone)))
    (v := (some (.deposit 31 12 ⟨50, "INR", by decide, by decide⟩,
        .ok (.moved ⟨71, .deposit, .completed, "INR", none⟩ (some ⟨31, 12, "INR", 150, 0, 0, 0⟩))),
      some (.getBalance 31 12, .ok (.balance ⟨31, "INR", 100, 0, 0⟩)), true))
    (by decide +kernel)
  have hj := congrArg Prod.fst hw
  have hs := congrArg (fun x => x.2.1) hw
  obtain ⟨hrun, hall⟩ := Bool.and_eq_true_iff.mp (congrArg (fun x => x.2.2) hw)
  obtain ⟨hnext, hsid, hlen, hrow⟩ := of_decide_eq_true hrun
  rw [List.all_eq_true] at hall
  obtain ⟨c, hc, hcj⟩ := Option.map_eq_some_iff.mp hsid
  refine ⟨w₁, w₂, h, hl, fun o ho _ => ?_, fun o ho => ?_, hj, hs, fun hfresh => ?_⟩
  · exact Option.isNone_iff_eq_none.mp (Bool.and_eq_true_iff.mp (hall o ho)).2
  · exact Option.isNone_iff_eq_none.mp (Bool.and_eq_true_iff.mp (hall o ho)).1
  · -- the only state after the deposit's commit is the present one
    obtain ⟨m, hm, hle, x, hx, hb⟩ := hfresh 6 _ _ 5 c rfl hj hc hcj 31 (by simp [Request.touched])
      7 12 _ (Nat.le_of_eq hnext) hs
    have hm' : m = w₂.store.commits.length := by omega
    have hnow : w₂.store.db = w₂.store.past engine .empty w₂.store.commits.length :=
      (Reachable.past (h.later hl)).1
    rw [hm', ← hnow, hrow] at hx
    cases hx
    exact absurd hb (by decide)

end WalletLedger
