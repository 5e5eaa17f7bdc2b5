import WalletLedger.Proof.Limits

/-!
# Currencies that grow

`WalletCreate` asks for a currency of three characters; what `create_wallet` looks up and
stores is that currency in upper case. The full case mapping may turn one character into
several, and a currency that has grown is too long for its column. No wallet can have it, so
the look-up finds nothing, and the INSERT fails outside the `try` around the commit.
-/

namespace WalletLedger

open Isolation Prog

/-! ## Lengths -/

/-- A list in which every element is replaced by at least one has as many elements as before exactly
if each is replaced by one. -/
theorem length_flatMap_le {α β : Type} {f : α → List β} (hf : ∀ a, f a ≠ []) (l : List α) :
    l.length ≤ (l.flatMap f).length
      ∧ ((l.flatMap f).length ≤ l.length ↔ ∀ a ∈ l, (f a).length = 1) := by
  induction l with
  | nil => simp
  | cons a l ih =>
      have hpos : 0 < (f a).length := List.length_pos_iff.mpr (hf a)
      obtain ⟨hle, hiff⟩ := ih
      simp only [List.flatMap_cons, List.length_append, List.length_cons, List.forall_mem_cons,
        ← hiff]
      omega

section runtime

variable [Runtime]

/-- Every character of the currency has one character for its upper case. -/
def WalletCreate.Stable (data : WalletCreate) : Prop :=
  ∀ c ∈ data.currency.toList, (Runtime.upperChar c).length = 1

/-- Upper case makes nothing shorter. -/
theorem WalletCreate.stable_iff (hcase : ∀ c, Runtime.upperChar c ≠ []) (data : WalletCreate) :
    3 ≤ (upper data.currency).length ∧ ((upper data.currency).length ≤ 3 ↔ data.Stable) := by
  have hlen : data.currency.toList.length = 3 := data.currency_length
  have hupper : (upper data.currency).length
      = (data.currency.toList.flatMap Runtime.upperChar).length := by
    simp [upper]
  obtain ⟨hle, hiff⟩ := length_flatMap_le hcase data.currency.toList
  rw [hlen] at hle hiff
  rw [hupper]
  exact ⟨hle, hiff⟩

/-! ## The look-up -/

omit [Runtime] in
/-- A slot that is full has a wallet whose currency fits. -/
theorem Db.InColumns.slot {db : Db} (h : db.InColumns) {ownerId : Uuid} {currency : String}
    (hfull : ¬(Slot.wallet ownerId currency).res.Absent db) : currency.length ≤ 3 := by
  obtain ⟨x, hx⟩ : ∃ x, db.walletByUserAndCurrency ownerId currency = some x :=
    Option.ne_none_iff_exists'.mp hfull
  obtain ⟨-, hcur⟩ : x.userId = ownerId ∧ x.currency = currency := by
    simpa using List.find?_some hx
  rw [← hcur]
  exact (h x (List.mem_of_find?_eq_some hx)).1

variable {i : Sid} {t : Request} {os : List LedgerObs} {ws' : List Write} {ownerId : Uuid}
  {data : WalletCreate}

/-- A call that goes on has found its slot free. -/
theorem createWallet_looked {r : Except Exn Wallet}
    (h : Trail engine i t (WalletService.createWallet ownerId data) [] os (ofExcept r) ws')
    (hf : ∀ o ∈ os, o.inp.fault = none) :
    r = .error (.walletAlreadyExists (upper data.currency))
      ∨ ∃ o ∈ os, (Slot.wallet ownerId (upper data.currency)).res.Absent o.db := by
  have hlook : ∀ inp i db o, run
    (.selectWalletByUserAndCurrency ownerId (upper data.currency)) inp i db o
      = some (reads inp o (db.walletByUserAndCurrency ownerId (upper data.currency))) :=
        fun _ _ _ _ => rfl
  rcases h.bind_ended with ⟨e, h₁, rfl⟩ | ⟨x, os₁, os₂, ws₁, rfl, h₁, h₂⟩
  · obtain ⟨o, rfl, -, ⟨f, hfault, -⟩ | ⟨-, hr, -⟩⟩ := read_ended hlook h₁
    · exact absurd (hfault.symm.trans (hf o (by simp))) (by simp)
    · exact absurd hr (by simp)
  · obtain ⟨o, rfl, -, ⟨f, hfault, -⟩ | ⟨-, hx, -⟩⟩ := read_ended hlook h₁
    · exact absurd (hfault.symm.trans (hf o (by simp))) (by simp)
    cases Except.ok.inj hx
    rcases raiseIf_ended h₂ with ⟨-, -, rfl, -⟩ | ⟨hfree, -⟩
    · exact .inl rfl
    · exact .inr ⟨o, by simp, Option.not_isSome_iff_eq_none.mp hfree⟩

/-- A statement that inserts no user, and no wallet but one. -/
def OpensOnly (ownerId : Uuid) (currency : String) : Stmt → Prop
  | .insertWallet u c => u = ownerId ∧ c = currency
  | .insertUser _ _ _ => False
  | _ => True

omit [Runtime] in
/-- It is clear if that wallet fits and is not there. -/
theorem OpensOnly.clear {currency : String} {o : LedgerObs} (h : OpensOnly ownerId currency o.stmt)
    (hlen : currency.length ≤ 3) (hfree : (Slot.wallet ownerId currency).res.Absent o.db) :
    Clear o := by
  unfold Clear
  cases hstmt : o.stmt with
  | insertWallet u c =>
      rw [hstmt] at h
      obtain ⟨rfl, rfl⟩ : u = ownerId ∧ c = currency := h
      exact ⟨hlen, hfree⟩
  | insertUser => rw [hstmt] at h; exact absurd h id
  | _ => trivial

theorem createWallet_uses : (Request.createWallet ownerId data).program.Uses
    (OpensOnly ownerId (upper data.currency)) := by
  have hrow : (WalletRepository.create ownerId (upper data.currency)).Uses
      (OpensOnly ownerId (upper data.currency)) :=
    .bind (.perform ⟨rfl, rfl⟩) (fun x => .perform trivial)
  refine uses_withSession ?_ trivial
  refine .bind (.perform trivial) (fun existing => .bind (.raiseIf _ _) (fun _ =>
    .bind hrow (fun x => ?_)))
  rw [attempt_bind]
  refine .handle (.perform trivial) (fun r => ?_)
  cases r with
  | ok u => exact .perform trivial
  | error e =>
      cases e with
      | db e =>
          cases e with
          | integrity => exact .bind (.perform trivial) (fun _ => trivial)
          | _ => trivial
      | _ => trivial

/-! ## The call -/

variable {db₀ : Db} {w : LedgerWorld}

/-- The wallet is opened or there is one already, and what is stored has three characters. -/
def Opened (w : LedgerWorld) (i : Sid) (currency : String) (r : Except Exn Reply) : Prop :=
  ((∃ a, r = .ok a) ∨ r = .error (.walletAlreadyExists currency))
    ∧ ∀ o ∈ w.store.script i, ∀ u c, o.stmt = .insertWallet u c → c.length = 3

/-- A session that is not told of a wallet has met its slot free. -/
theorem ended_looked (h : ReachableFrom db₀ w) {r : Except Exn Reply}
    (hs : ended w i = some (.createWallet ownerId data, r))
    (hf : ∀ o ∈ w.store.script i, o.inp.fault = none) :
    r = .error (.walletAlreadyExists (upper data.currency))
      ∨ ∃ o ∈ w.store.script i, (Slot.wallet ownerId (upper data.currency)).res.Absent o.db := by
  obtain ⟨ws, htrail⟩ := ended_trail h hs rfl
  obtain ⟨os, d, ws₁, hos, -, hinner⟩ := withSession_ended htrail
  obtain ⟨r', hservice, rfl⟩ := hinner.map_ended
  rcases createWallet_looked hservice (fun o ho => hf o (by rw [hos]; simp [ho])) with rfl
    | ⟨o, ho, hfree⟩
  · exact .inl rfl
  · exact .inr ⟨o, by rw [hos]; simp [ho], hfree⟩

/-- **Left alone, `create_wallet` opens the wallet or says that there is one, if and only if upper
case leaves the currency as long as it was.** -/
theorem reachable_opened (db₀ : Db) (w : LedgerWorld) (h : ReachableFrom db₀ w) (h₀ : db₀.InColumns)
    (hcase : ∀ c, Runtime.upperChar c ≠ []) (i : Sid) (ownerId : Uuid) (data : WalletCreate)
    (r : Except Exn Reply) (hs : ended w i = some (.createWallet ownerId data, r))
    (hu : Uninterrupted w i) (hun : ∀ o ∈ w.store.script i, Unhindered o) :
    Opened w i (upper data.currency) r ↔ data.Stable := by
  have hwant : (Slot.wallet ownerId (upper data.currency)).Wanted
    (.createWallet ownerId data) := ⟨rfl, rfl⟩
  have hcourse : Course (.wallet ownerId (upper data.currency)) (w.store.script i) r :=
    ended_course h hwant hs hun
  obtain ⟨hge, hstable⟩ := data.stable_iff hcase
  have hfits : ∀ n, ¬(Slot.wallet ownerId (upper data.currency)).res.Absent
    (w.store.past engine db₀ n) →
      (upper data.currency).length ≤ 3 := fun n hfull => (reachable_inColumns h h₀ n).slot hfull
  constructor
  · rintro ⟨hend, -⟩
    refine hstable.mp ?_
    cases hcourse with
    | found mem full _ _ =>
        rw [(h.past.2 _ (mem_script.mp mem).1).2] at full
        exact hfits _ full
    | clashed _ _ _ =>
        rcases hend with ⟨a, ha⟩ | he
        · exact absurd ha (by simp)
        · exact absurd he (by simp)
    | made split commit fault buffered lands clear back =>
        -- what it has committed fills the slot
        have hcourse : Course (.wallet ownerId (upper data.currency)) (w.store.script i) r :=
          .made split commit fault buffered lands clear back
        obtain ⟨-, n, ws, hc⟩ := hcourse.recorded h hs ⟨_, by rw [split]; simp, commit⟩
        have hfull := (((reachable_settled h).legal hc).fills hwant).2.1
        rw [← past_succ hc] at hfull
        exact hfits _ hfull
  · intro hst
    have hle := hstable.mpr hst
    obtain ⟨ws, htrail⟩ := ended_trail h hs rfl
    have hinsert := (htrail.uses createWallet_uses).1
    refine ⟨?_, fun o ho u c hstmt => ?_⟩
    · cases hcourse with
      | found => exact .inr rfl
      | made split commit fault buffered lands clear back =>
          have hcourse : Course (.wallet ownerId (upper data.currency)) (w.store.script i) r :=
            .made split commit fault buffered lands clear back
          exact .inl (hcourse.recorded h hs ⟨_, by rw [split]; simp, commit⟩).1
      | clashed mem unclear quiet =>
          rename_i o e
          -- nothing is committed in between, so the INSERT meets the slot as the look-up has
          obtain ⟨d, hd⟩ : ∃ d, (w.store.script i).head? = some d := by
            cases hscript : w.store.script i with
            | nil => rw [hscript] at mem; exact absurd mem (by simp)
            | cons d os => exact ⟨d, rfl⟩
          have hdb := (hu.met h hd).all quiet
          rcases ended_looked h hs (fun o ho => (hun o ho).1) with he | ⟨o', ho', hfree⟩
          · exact absurd he (by simp)
          rw [hdb o' ho', ← hdb o mem] at hfree
          exact absurd ((hinsert o mem).clear hle hfree) unclear
    · have hopens := hinsert o ho
      rw [hstmt] at hopens
      obtain ⟨rfl, rfl⟩ : u = ownerId ∧ c = upper data.currency := hopens
      omega

end runtime

/-! ## Runs -/

theorem upperChar_plain (c : Char) : @Runtime.upperChar plainRuntime c ≠ [] := List.cons_ne_nil _ _

theorem askedTwice_opened : ∃ w, (@GuidedFrom plainRuntime .empty w
    ∧ ended w 5 = some (.createWallet 12 ⟨"Usd", by decide⟩, .error (.walletAlreadyExists "USD"))
    ∧ ∀ o ∈ w.store.script 5, Unhindered o)
    ∧ (Opened w 5 (@upper plainRuntime "Usd") (.error (.walletAlreadyExists "USD"))
      ↔ @WalletCreate.Stable plainRuntime ⟨"Usd", by decide⟩) := by
  obtain ⟨w, hg, hw⟩ := exists_served .empty askedTwice (fun w =>
      (w.store.trace.all (fun o => decide (Unhindered o)), ended w 5))
    (v := (true, some (.createWallet 12 ⟨"Usd", by decide⟩, .error (.walletAlreadyExists "USD"))))
    (by decide +kernel)
  have hun : ∀ o ∈ w.store.script 5, Unhindered o := fun o ho =>
    of_decide_eq_true (List.all_eq_true.mp (congrArg Prod.fst hw) o (mem_script.mp ho).1)
  have hs := congrArg Prod.snd hw
  have hr : @ReachableFrom plainRuntime .empty w := hg.reachable
  exact ⟨w, ⟨hg, hs, hun⟩, @reachable_opened plainRuntime .empty w hr inColumns_empty
    upperChar_plain 5 12 _ _ hs
    (@GuidedFrom.uninterrupted plainRuntime .empty w hg 5) hun⟩

/-- A runtime that knows a letter with two letters for its upper case. -/
@[reducible] def sharpRuntime : Runtime :=
  ⟨fun c => if c = 'ß' then ['S', 'S'] else [c.toUpper], fun password _ => "$argon2id$" ++ password⟩

/-- Ann asks for a wallet in a currency with that letter. -/
def sharp : List LedgerAction :=
  [.spawn (.register ⟨"Ann", "ann@example.com", "secret"⟩)] ++ advance 0 7 10
    ++ [.spawn (.createWallet 12 ⟨"ßab", by decide⟩)] ++ advance 1 3 20

/-- It has four characters when it comes to the INSERT. -/
theorem sharp_unopened : ∃ w, @GuidedFrom sharpRuntime .empty w
    ∧ (∀ o ∈ w.store.script 1, Unhindered o)
    ∧ ended w 1 = some (.createWallet 12 ⟨"ßab", by decide⟩, .error (.db .data))
    ∧ (Request.createWallet 12 ⟨"ßab", by decide⟩).respond (.error (.db .data)) = some .serverError
    ∧ ¬Opened w 1 "SSAB" (.error (.db .data)) := by
  have hrun : ((@system sharpRuntime).serves (World.init (LedgerStore.start .empty))
    sharp).map (fun w =>
      (w.store.trace.all (fun o => decide (Unhindered o)),
        decide (ended w 1 = some (.createWallet 12 ⟨"ßab", by decide⟩, .error (.db .data)))))
      = some (true, true) := by decide +kernel
  obtain ⟨w, hw, hv⟩ := Option.map_eq_some_iff.mp hrun
  have hun : ∀ o ∈ w.store.script 1, Unhindered o := fun o ho =>
    of_decide_eq_true (List.all_eq_true.mp (congrArg Prod.fst hv) o (mem_script.mp ho).1)
  refine ⟨w, Guided.init.serves hw, hun, of_decide_eq_true (congrArg Prod.snd hv), rfl, ?_⟩
  rintro ⟨⟨a, ha⟩ | he, -⟩
  · exact absurd ha (by simp)
  · exact absurd he (by simp)

end WalletLedger
