import WalletLedger.Proof.Ending
import WalletLedger.Proof.Replay
import WalletLedger.Proof.Slots
import WalletLedger.Proof.Transparency

/-!
# The limits of a money operation

A money operation checks everything it can answer for, except that the balance it adds to
may be as large as the column allows, and that a key may be stored without ever being looked
up. Left alone, it is answered by its route unless it meets one of these limits:

- the target of the movement has no room for the amount (`Movement.HasRoom`);
- its key is the empty string, and somebody has stored that (`Request.Clashes`);
- its key is found, but the wallet in its path is not there (`Request.Orphaned`).
-/

namespace WalletLedger

open Isolation Prog

variable [Runtime]

/-! ## Left alone -/

/-- From one statement of a session to another, nobody else commits. -/
def Uninterrupted (w : LedgerWorld) (i : Sid) : Prop :=
  ∀ o ∈ w.store.script i, ∀ o' ∈ w.store.script i, ∀ (n : Nat) (c : LedgerCommit),
    w.store.commits[n]? = some c → o.clock ≤ n → n < o'.clock → c.sid = i

section alone

variable {db₀ : Db} {w : LedgerWorld} {i : Sid} {t : Request} {r : Except Exn Reply} {o : LedgerObs}

/-- One at a time, every session is left alone. -/
theorem GuidedFrom.uninterrupted (h : GuidedFrom db₀ w) (i : Sid) : Uninterrupted w i := by
  intro o ho o' ho' n c hc hle hlt
  obtain ⟨hmem, hsid⟩ := mem_script.mp ho
  obtain ⟨hmem', hsid'⟩ := mem_script.mp ho'
  have hseq := h.sequential
  have hge : i ≤ c.sid := by
    rw [← hsid]
    exact hseq.commits o hmem n c hc hle
  -- the commit comes before `o'`, so it belongs to this session or an earlier one
  obtain ⟨pre, d, post, hsplit, hd, -, -, hclock, -⟩ := commit_marked h.reachable hc
  have hclocks := h.reachable.clocks
  have hsids := hseq.trace
  rw [hsplit, List.pairwise_append, List.pairwise_cons] at hclocks hsids
  have hupto : c.sid ≤ i := by
    rw [hsplit] at hmem'
    rcases List.mem_append.mp hmem' with hpre | hmem'
    · have hearly := hclocks.2.2 o' hpre d (by simp)
      omega
    · rcases List.mem_cons.mp hmem' with rfl | hpost
      · omega
      · have hlate := hsids.2.1.1 o' hpost
        rw [hd, hsid'] at hlate
        exact hlate
  exact Nat.le_antisymm hupto hge

/-- A session that is left alone meets one state until it commits. -/
theorem Uninterrupted.met (hu : Uninterrupted w i) (h : ReachableFrom db₀ w)
    (ho : (w.store.script i).head? = some o) : Met o.db (w.store.script i) := by
  have hclocks : (w.store.script i).Pairwise (fun o o' => o.clock ≤ o'.clock) :=
    h.clocks.sublist List.filter_sublist
  refine .of_splits (fun pre o' post hsplit hquiet => ?_)
  have hmem : o ∈ w.store.script i := List.mem_of_mem_head? ho
  have hmem' : o' ∈ w.store.script i := by rw [hsplit]; simp
  obtain ⟨-, hseen⟩ := h.past.2 o (mem_script.mp hmem).1
  obtain ⟨hbound, hseen'⟩ := h.past.2 o' (mem_script.mp hmem').1
  have hle : o.clock ≤ o'.clock := by
    cases pre with
    | nil =>
        rw [hsplit] at ho
        cases ho
        exact Nat.le_refl _
    | cons x pre =>
        rw [hsplit] at ho hclocks
        cases ho
        exact (List.pairwise_cons.mp hclocks).1 o' (by simp)
  have heq : o.clock = o'.clock := by
    by_contra hne
    -- a commit in between is this session's own
    obtain ⟨c, hc⟩ : ∃ c, w.store.commits[o.clock]? = some c :=
      ⟨_, List.getElem?_eq_getElem (by omega)⟩
    have hown := hu o hmem o' hmem' o.clock c hc (Nat.le_refl _) (by omega)
    obtain ⟨_, d, _, htrace, hd, -, hcommit, hclock, -⟩ := commit_marked h hc
    have hdmem : d ∈ w.store.script i := mem_script.mpr ⟨by rw [htrace]; simp, hd.trans hown⟩
    rw [hsplit, List.pairwise_append, List.pairwise_cons] at hclocks
    rw [hsplit] at hdmem
    rcases List.mem_append.mp hdmem with hpre | hdmem
    · exact hquiet d hpre hcommit
    · rcases List.mem_cons.mp hdmem with rfl | hpost
      · omega
      · have hlate := hclocks.2.1.1 d hpost
        omega
  rw [hseen, hseen', heq]

omit [Runtime] in
/-- An invalidation never fails. -/
theorem invalidate_ok {ids : List Uuid} {os : List LedgerObs} {ws ws' : List Write}
    {r : Except Exn Unit}
    (h : Trail engine i t (BalanceCache.invalidate ids) ws os (ofExcept r) ws') : r = .ok () := by
  unfold BalanceCache.invalidate at h
  split at h
  · obtain ⟨-, hr, -⟩ := h.ret_inv
    exact ofExcept_inj hr
  · rcases h.bind_ended with ⟨e, h₁, -⟩ | ⟨a, os₁, os₂, ws₁, -, -, h₂⟩
    · obtain ⟨_, _, _, _, -, -, h₃⟩ := h₁.handle_ended
      obtain ⟨-, hr, -⟩ := h₃.ret_inv
      exact absurd hr (by simp [Prog.ofExcept])
    · obtain ⟨-, hr, -⟩ := h₂.ret_inv
      exact ofExcept_inj hr

/-- **How a money session ends that was left alone.** -/
theorem ended_ending (h : ReachableFrom db₀ w) (h₀ : db₀.InColumns) (hs : ended w i = some (t, r))
    (ht : t.movesMoney = true) (hu : Uninterrupted w i) (ho : (w.store.script i).head? = some o) :
    ∃ r', Ending t o.db (w.store.script i) r' ∧ r = r'.map Reply.ofMoved := by
  have hmet := hu.met h ho
  have hcol : o.db.InColumns := by
    rw [(h.past.2 o (mem_script.mp (List.mem_of_mem_head? ho)).1).2]
    exact reachable_inColumns h h₀ _
  have hservice : ∀ {p : Tx (Transaction × Option Wallet)} {ids : List Uuid},
      t.program = withSession (Reply.ofMoved <$> (do
        let r ← p
        BalanceCache.invalidate ids
        pure r)) →
      (∀ {os : List LedgerObs} {ws : List Write} {r : Except Exn (Transaction × Option Wallet)},
        Trail engine i t p [] os (ofExcept r) ws → Met o.db os → Ending t o.db os r) →
      ∃ r', Ending t o.db (w.store.script i) r' ∧ r = r'.map Reply.ofMoved := by
    intro p ids hprog hp
    obtain ⟨ws, htrail⟩ := ended_trail h hs (Request.next_money ht)
    rw [hprog] at htrail
    obtain ⟨os, d, ws₁, hos, hclose, hinner⟩ := withSession_ended htrail
    obtain ⟨r', hroute, rfl⟩ := hinner.map_ended
    refine ⟨r', ?_, rfl⟩
    rw [hos] at hmet ⊢
    have hd : d.stmt.integers = [] := by rw [hclose]; rfl
    rcases hroute.bind_ended with ⟨e, h₁, rfl⟩ | ⟨a, os₁, os₂, ws₂, rfl, h₁, h₂⟩
    · have hext := (hp h₁ hmet.left).extend [] [d] rfl (by simp) (by simpa using hd)
      simpa using hext
    · -- after the service nothing is stored, and the result stays
      have hmute := (h₂.uses (P := fun q => q.integers = [])
        (.bind (uses_invalidate rfl) (fun _ => trivial))).1
      have hr : r' = .ok a := by
        rcases h₂.bind_ended with ⟨e, h₃, -⟩ | ⟨u, _, _, _, -, -, h₃⟩
        · exact absurd (invalidate_ok h₃) (by simp)
        · obtain ⟨-, hr, -⟩ := h₃.ret_inv
          exact ofExcept_inj hr
      subst hr
      have hext := (hp h₁ hmet.left.left).extend [] (os₂ ++ [d]) rfl (by simp) (fun x hx => ?_)
      · simpa using hext
      · rcases List.mem_append.mp hx with hx | hx
        · exact hmute x hx
        · rw [List.mem_singleton.mp hx]
          exact hd
  cases t with
  | deposit w u data => exact hservice rfl (fun h hm => deposit_ending h hm hcol)
  | transfer w u data key => exact hservice rfl (fun h hm => transfer_ending h hm hcol)
  | withdraw w u data key => exact hservice rfl (fun h hm => withdraw_ending h hm hcol)
  | _ => exact absurd ht (by simp [Request.movesMoney])

/-! ## What it commits it reads back -/

/-- A request that is admitted names a wallet that is there. -/
theorem Request.Admits.path_present {db : Db} {mv : Movement} (h : t.Admits db mv) :
    ¬(Res.wallet t.path).Absent db := by
  intro habs
  obtain ⟨x, hx, hid, -⟩ := h.moves.path
  have hrow : db.wallets.get t.path = none := habs
  rw [← hid, h.backed.wallets x hx] at hrow
  exact absurd hrow (by simp)

/-- A session that has got as far as its commit, and that nothing interferes with, answers with
its transaction and the wallet in its path. -/
theorem completed (h : ReachableFrom db₀ w) (ho : (w.store.script i).head? = some o)
    (hpath : ¬(Res.wallet t.path).Absent o.db) (hf : Favourable (w.store.script i))
    {os₁ os₂ : List LedgerObs} {id : Uuid} {r' : Except Exn (Transaction × Option Wallet)}
    (hsplit : w.store.script i = os₁ ++ os₂) (hws : engine.buffered [] os₁ ≠ [])
    (hlands : ∀ db : Db, ¬(Res.transaction id).Absent (db.applyAll (engine.buffered [] os₁)))
    (hc : Completes t.path id os₂ r') : ∃ txn x, r' = .ok (txn, some x) := by
  obtain ⟨d, os', rfl, hcommit, hback⟩ := hc
  rw [hsplit] at hf
  refine hback hf.right (fun o' ho' => ?_)
  have hmem' : o' ∈ w.store.script i := by rw [hsplit]; simp [ho']
  have hfault : d.inp.fault = none := hf.answered d (by simp)
  -- the commit has its place in the history
  obtain ⟨hrec, hlate⟩ := commit_sealed h hsplit hcommit hfault hws
  -- what was there before it, or is in it, is there after it
  have hset := reachable_settled h
  have hseen := (h.past.2 o (mem_script.mp (List.mem_of_mem_head? ho)).1).2
  have hseen' := (h.past.2 o' (mem_script.mp hmem').1).2
  have hfirst : o.clock ≤ o'.clock := by
    have hclocks : (w.store.script i).Pairwise (fun o o' => o.clock ≤ o'.clock) :=
      h.clocks.sublist List.filter_sublist
    cases hscript : w.store.script i with
    | nil => rw [hscript] at hmem'; exact absurd hmem' (by simp)
    | cons x os =>
        rw [hscript] at ho hclocks hmem'
        cases ho
        rcases List.mem_cons.mp hmem' with rfl | hrest
        · exact Nat.le_refl _
        · exact (List.pairwise_cons.mp hclocks).1 o' hrest
  constructor
  · rw [hseen']
    rw [hseen] at hpath
    exact hset.present hfirst hpath
  · rw [hseen']
    refine hset.present (hlate o' ho') ?_
    show ¬(Res.transaction id).Absent (w.store.past engine db₀ (d.clock + 1))
    rw [past_succ hrec]
    exact hlands _

omit [Runtime] in
/-- No route answers for the database. -/
theorem respond_db {e : DbError} (ht : t.movesMoney = true) :
    t.respond (.error (.db e)) = some .serverError := by
  cases t with
  | deposit | transfer | withdraw => rfl
  | _ => exact absurd ht (by simp [Request.movesMoney])

/-! ## Runs on which nothing interferes -/

/-- Whether the id drawn for a row is new. -/
def drawsNew (o : LedgerObs) : Bool :=
  match o.stmt with
  | .insertTransaction _ _ _ _ => (o.db.transactions.get o.inp.uuid).isNone
  | .insertEntry _ _ _ _ _ _ => (o.db.ledgerEntries.get o.inp.uuid).isNone
  | .insertEvent _ _ _ _ => (o.db.outboxEvents.get o.inp.uuid).isNone
  | _ => true

omit [Runtime] in
theorem drawsNew_iff {o : LedgerObs} : drawsNew o = true ↔ DrawsNew o := by
  unfold drawsNew DrawsNew
  cases o.stmt <;> simp

/-- Whether the environment has let some statements be. -/
def favourable (os : List LedgerObs) : Bool :=
  os.all (fun o => o.inp.fault.isNone) && os.all drawsNew
    && decide (os.Pairwise (fun o o' => o.stmt.isLeg = true → o'.stmt.isLeg = true →
      o.inp.uuid ≠ o'.inp.uuid))

omit [Runtime] in
theorem favourable_sound {os : List LedgerObs} (h : favourable os = true) : Favourable os := by
  obtain ⟨h, hapart⟩ := Bool.and_eq_true_iff.mp h
  obtain ⟨hanswered, hdrawn⟩ := Bool.and_eq_true_iff.mp h
  exact ⟨fun o ho => Option.isNone_iff_eq_none.mp (List.all_eq_true.mp hanswered o ho),
    fun o ho => drawsNew_iff.mp (List.all_eq_true.mp hdrawn o ho), of_decide_eq_true hapart⟩

omit [Runtime] in
theorem inColumns_empty : Db.empty.InColumns := fun _ hw => absurd hw (by simp [Db.empty])

/-! ## Integers -/

/-- Every integer a session hands to the database fits its column, or its route has refused the
request. -/
def Bounded (w : LedgerWorld) (i : Sid) (t : Request) (r : Except Exn Reply) : Prop :=
  (∀ o ∈ w.store.script i, o.stmt.InRange)
    ∨ ((∃ e, r = .error e) ∧ t.respond r ≠ some .serverError)

/-- **Left alone, an operation stays in the range of its columns if its movement has room**, and
only then if nothing interferes with it: the balance that is added to is checked by nobody. -/
theorem reachable_bounded (db₀ : Db) (w : LedgerWorld) (h : ReachableFrom db₀ w)
    (h₀ : db₀.InColumns)
    (i : Sid) (t : Request) (ht : t.movesMoney = true) (r : Except Exn Reply)
    (hs : ended w i = some (t, r)) (hu : Uninterrupted w i) (o : LedgerObs)
    (ho : (w.store.script i).head? = some o) :
    ((∀ mv, t.Admits o.db mv → o.db.Accepts t.key → mv.HasRoom) → Bounded w i t r)
      ∧ (Favourable (w.store.script i) → Bounded w i t r →
        ∀ mv, t.Admits o.db mv → o.db.Accepts t.key → mv.HasRoom) := by
  have hcol : o.db.InColumns := by
    rw [(h.past.2 o (mem_script.mp (List.mem_of_mem_head? ho)).1).2]
    exact reachable_inColumns h h₀ _
  have hroom : ∀ {mv : Movement}, t.Admits o.db mv →
      (mv.HasRoom ↔ ∀ n ∈ mv.integers, fitsBigint n = true) := fun hadm =>
    hadm.backed.hasRoom_iff hadm.moves.shaped hcol hadm.moves.amount_pos
  have hsilent : (∀ o ∈ w.store.script i, o.stmt.integers = []) → Bounded w i t r := by
    intro hmute
    refine .inl (fun o ho n hn => ?_)
    rw [hmute o ho] at hn
    exact absurd hn (by simp)
  have hown : ∀ {mv : Movement}, (∀ o ∈ w.store.script i, o.stmt.integers ⊆ mv.integers) →
      (∀ n ∈ mv.integers, fitsBigint n = true) → ∀ o ∈ w.store.script i, o.stmt.InRange :=
    fun hsub hfits o ho n hn => hfits n (hsub o ho hn)
  obtain ⟨r', hend, rfl⟩ := ended_ending h h₀ hs ht hu ho
  constructor
  · intro hcond
    cases hend with
    | failed _ mute | refused _ _ _ mute | replayed _ _ _ _ mute | barred _ _ _ mute =>
        exact hsilent mute
    | burst admits accepts own _ =>
        exact .inl (hown own ((hroom admits).mp (hcond _ admits accepts)))
    | booked _ _ own fits => exact .inl (hown own fits)
  · intro hf hbound mv hadm hacc
    cases hend with
    | failed spoiled _ => exact absurd hf spoiled
    | refused _ rejects _ _ => exact absurd hadm (rejects mv)
    | replayed key _ bound _ _ =>
        have hfree := (hacc _ key).2
        rw [bound] at hfree
        exact absurd hfree (by simp)
    | barred _ _ refused _ => exact absurd hacc (refused hf)
    | burst _ _ _ breaks =>
        obtain ⟨d, hd, hover⟩ := breaks hf
        rcases hbound with hin | ⟨-, hhandled⟩
        · exact absurd (hin d hd) hover
        · exact absurd (respond_db ht) hhandled
    | booked admits _ _ fits =>
        rw [hadm.unique admits]
        exact (hroom admits).mpr fits

omit [Runtime] in
/-- The first deposit has room. -/
theorem opening_bounded : ∃ w o r, (@GuidedFrom plainRuntime .empty w
    ∧ ended w 4 = some (.deposit 31 12 (depositOf 100), r)
    ∧ (w.store.script 4).head? = some o ∧ Favourable (w.store.script 4))
    ∧ ((∀ mv, @Request.Admits plainRuntime (.deposit 31 12 (depositOf 100)) o.db mv →
        o.db.Accepts none → mv.HasRoom) → Bounded w 4 (.deposit 31 12 (depositOf 100)) r)
    ∧ (Favourable (w.store.script 4) → Bounded w 4 (.deposit 31 12 (depositOf 100)) r →
      ∀ mv, @Request.Admits plainRuntime (.deposit 31 12 (depositOf 100)) o.db mv →
        o.db.Accepts none → mv.HasRoom) := by
  obtain ⟨w, hg, hw⟩ := exists_served .empty opening (fun w =>
      ((ended w 4).map Prod.fst, favourable (w.store.script 4), (w.store.script 4).head?.isSome))
    (v := (some (.deposit 31 12 (depositOf 100)), true, true)) (by decide +kernel)
  obtain ⟨⟨t, r⟩, hs, ht⟩ := Option.map_eq_some_iff.mp (congrArg Prod.fst hw)
  have ht : t = .deposit 31 12 (depositOf 100) := ht
  subst ht
  have hf := favourable_sound (congrArg (fun v => v.2.1) hw)
  obtain ⟨o, ho⟩ := Option.isSome_iff_exists.mp (congrArg (fun v => v.2.2) hw)
  have hr : @ReachableFrom plainRuntime .empty w := hg.reachable
  exact ⟨w, o, r, ⟨hg, hs, ho, hf⟩, @reachable_bounded plainRuntime .empty w hr
    inColumns_empty 4 _ rfl r hs
    (@GuidedFrom.uninterrupted plainRuntime .empty w hg 4) o ho⟩

/-- The wallet has 100 and is paid so much that it would have `2 ^ 63`. -/
def overfilled : List LedgerAction :=
  opening ++ [.spawn (.deposit 31 12 (depositOf (2 ^ 63 - 100)))] ++ advance 5 8 60

omit [Runtime] in
/-- The amount itself fits. -/
theorem overfilled_unbounded : ∃ w, @GuidedFrom plainRuntime .empty w
    ∧ Uninterrupted w 5 ∧ Favourable (w.store.script 5)
    ∧ ended w 5 = some (.deposit 31 12 (depositOf (2 ^ 63 - 100)), .error (.db .data))
    ∧ ¬Bounded w 5 (.deposit 31 12 (depositOf (2 ^ 63 - 100))) (.error (.db .data)) := by
  obtain ⟨w, hg, hw⟩ := exists_served .empty overfilled (fun w =>
      (decide (ended w 5 = some (.deposit 31 12 (depositOf (2 ^ 63 - 100)), .error (.db .data))),
        favourable (w.store.script 5),
        (w.store.script 5).all (fun o => o.stmt.integers.all fitsBigint)))
    (v := (true, true, false)) (by decide +kernel)
  have hs := of_decide_eq_true (congrArg Prod.fst hw)
  have hover := congrArg (fun v => v.2.2) hw
  refine ⟨w, hg, @GuidedFrom.uninterrupted plainRuntime .empty w hg 5,
    favourable_sound (congrArg (fun v => v.2.1) hw), hs, ?_⟩
  rintro (hin | ⟨-, hhandled⟩)
  · have hall : (w.store.script 5).all (fun o => o.stmt.integers.all fitsBigint) = true :=
      List.all_eq_true.mpr (fun o ho => List.all_eq_true.mpr (hin o ho))
    rw [hall] at hover
    exact absurd hover (by simp)
  · exact hhandled rfl

/-! ## Keys -/

/-- **Served one at a time, with keys and balances in range, a keyed request is answered by its
route if and only if its key does not clash and does not orphan it**: a look-up is made for every
key but the empty one, and the reply needs the wallet in the path. -/
theorem guided_answered (db₀ : Db) (w : LedgerWorld) (h : GuidedFrom db₀ w) (h₀ : db₀.InColumns)
    (i : Sid) (t : Request) (ht : t.isKeyed = true) (hlen : ∀ k ∈ t.key, k.length ≤ 255)
    (r : Except Exn Reply) (hs : ended w i = some (t, r)) (o : LedgerObs)
    (ho : (w.store.script i).head? = some o) (hroom : ∀ mv, t.Admits o.db mv → mv.HasRoom)
    (hf : Favourable (w.store.script i)) :
    t.respond r ≠ some .serverError ↔ ¬t.Clashes o.db ∧ ¬t.Orphaned o.db := by
  have hmoney := movesMoney_of_isKeyed ht
  have hcol : o.db.InColumns := by
    rw [(h.reachable.past.2 o (mem_script.mp (List.mem_of_mem_head? ho)).1).2]
    exact reachable_inColumns h.reachable h₀ _
  -- a reply without a wallet is the only one the route cannot build
  have hreply : ∀ {txn x}, t.respond (.ok (.moved txn x)) ≠ some .serverError ↔ x ≠ none := by
    intro txn x
    cases t with
    | transfer w u data key =>
        cases x <;> simp [Request.respond, Request.answer, Routes.built, Routes.transferError,
          Response.serverError]
    | withdraw w u data key =>
        cases x <;> simp [Request.respond, Request.answer, Routes.built, Routes.withdrawError,
          Response.serverError]
    | _ => exact absurd ht (by simp [Request.isKeyed])
  obtain ⟨r', hend, rfl⟩ := ended_ending h.reachable h₀ hs hmoney (h.uninterrupted i) ho
  cases hend with
  | failed spoiled _ => exact absurd hf spoiled
  | refused handled rejects kept _ =>
      refine iff_of_true handled ⟨fun hclash => ?_, kept⟩
      obtain ⟨-, -, mv, hadm⟩ := hclash
      exact rejects mv hadm
  | replayed key ne bound apart _ =>
      refine hreply.trans ⟨fun hrow => ⟨fun hclash => ?_, fun horphan => hrow horphan.2.2⟩,
        fun hgood hrow => ?_⟩
      · rw [hclash.1] at key
        exact ne (Option.some.inj key).symm
      · exact hgood.2 ⟨apart, ⟨_, key, ne, by rw [bound]; rfl⟩, hrow⟩
  | barred admits unbound refused _ =>
      refine iff_of_false (not_not.mpr (respond_db hmoney))
        (fun hgood => refused hf (fun k hk => ⟨hlen k hk, ?_⟩))
      by_cases hne : k = ""
      · subst hne
        by_contra hbound
        exact hgood.1 ⟨hk, Option.isSome_iff_ne_none.mpr hbound, _, admits⟩
      · exact unbound k hk hne
  | burst admits _ own breaks =>
      obtain ⟨d, hd, hover⟩ := breaks hf
      have hfits := (admits.backed.hasRoom_iff admits.moves.shaped hcol admits.moves.amount_pos).mp
        (hroom _ admits)
      exact absurd (fun n hn => hfits n (own d hd hn)) hover
  | booked admits accepts _ _ split buffered some lands completes =>
      subst buffered
      obtain ⟨txn, x, rfl⟩ := completed h.reachable ho admits.path_present hf split
        some lands completes
      have hfree : ∀ {k}, t.key = Option.some k → (o.db.transactionByKey k).isSome
          = true → False := by
        intro k hk hbound
        rw [(accepts k hk).2] at hbound
        exact absurd hbound (by simp)
      refine iff_of_true (hreply.mpr (by simp)) ⟨fun hclash => hfree hclash.1 hclash.2.1, ?_⟩
      rintro ⟨-, ⟨k, hk, -, hbound⟩, -⟩
      exact hfree hk hbound

/-- Ann sends Bob 10, and sends the request again under the same key. -/
def resent : List LedgerAction :=
  opening ++ [.spawn (.transfer 31 12 (transferOf 41 10) (some "k"))] ++ advance 5 17 60
    ++ [.spawn (.transfer 31 12 (transferOf 41 10) (some "k"))] ++ advance 6 4 90

omit [Runtime] in
theorem resent_answered : ∃ w o r, (@GuidedFrom plainRuntime .empty w
    ∧ ended w 6 = some (.transfer 31 12 (transferOf 41 10) (some "k"), r)
    ∧ (w.store.script 6).head? = some o ∧ Favourable (w.store.script 6))
    ∧ ((Request.transfer 31 12 (transferOf 41 10) (some "k")).respond r ≠ some .serverError
      ↔ ¬@Request.Clashes plainRuntime (.transfer 31 12 (transferOf 41 10) (some "k")) o.db
        ∧ ¬(Request.transfer 31 12 (transferOf 41 10) (some "k")).Orphaned o.db) := by
  obtain ⟨w, hg, hw⟩ := exists_served .empty resent (fun w =>
      ((ended w 6).map Prod.fst, favourable (w.store.script 6),
        (w.store.script 6).head?.bind (fun o => (o.db.wallets.get 41).map Wallet.availableBalance)))
    (v := (some (.transfer 31 12 (transferOf 41 10) (some "k")), true, some 10)) (by decide +kernel)
  obtain ⟨⟨t, r⟩, hs, ht⟩ := Option.map_eq_some_iff.mp (congrArg Prod.fst hw)
  have ht : t = .transfer 31 12 (transferOf 41 10) (some "k") := ht
  subst ht
  have hf := favourable_sound (congrArg (fun v => v.2.1) hw)
  obtain ⟨o, ho, hbob⟩ := Option.bind_eq_some_iff.mp (congrArg (fun v => v.2.2) hw)
  obtain ⟨x, hx, hten⟩ := Option.map_eq_some_iff.mp hbob
  refine ⟨w, o, r, ⟨hg, hs, ho, hf⟩, @guided_answered plainRuntime .empty w hg
    inColumns_empty 6 _ rfl
    (fun k hk => ?_) r hs o ho (fun mv hadm y hy => ?_) hf⟩
  · cases hk
    decide
  · -- Bob's balance is far below the limit
    obtain ⟨-, _, y', -, -, hrow, -, -, -, rfl⟩ :=
      (@admits_transfer plainRuntime _ _ _ _ _ _).mp hadm
    have hy : y' = y := Side.wallet.inj hy
    have heq : y' = x := Option.some.inj (hrow.symm.trans hx)
    rw [← hy, heq, hten]
    show (10 : Int) + 10 < 2 ^ 63
    decide

/-- A withdrawal under the empty key, and the same again; then one under another key, which is
used again for a wallet that does not exist. -/
def blankKeys : List LedgerAction :=
  opening ++ [.spawn (.withdraw 31 12 (withdrawalOf 10) (some ""))] ++ advance 5 14 60
    ++ [.spawn (.withdraw 31 12 (withdrawalOf 10) (some ""))] ++ advance 6 3 80
    ++ [.spawn (.withdraw 31 12 (withdrawalOf 10) (some "k"))] ++ advance 7 15 90
    ++ [.spawn (.withdraw 99 12 (withdrawalOf 10) (some "k"))] ++ advance 8 4 120

omit [Runtime] in
/-- The second request is told `IntegrityError`, the last gets no wallet to reply with. -/
theorem blankKeys_unanswered : ∃ w txn, @GuidedFrom plainRuntime .empty w
    ∧ (∀ o ∈ w.store.trace, o.inp.fault = none)
    ∧ ended w 6 = some (.withdraw 31 12 (withdrawalOf 10) (some ""), .error (.db .integrity))
    ∧ (Request.withdraw 31 12 (withdrawalOf 10) (some "")).respond (.error (.db .integrity))
      = some .serverError
    ∧ ended w 8 = some (.withdraw 99 12 (withdrawalOf 10) (some "k"), .ok (.moved txn none))
    ∧ (Request.withdraw 99 12 (withdrawalOf 10) (some "k")).respond (.ok (.moved txn none))
      = some .serverError := by
  obtain ⟨w, hg, hw⟩ := exists_served .empty blankKeys (fun w =>
      (w.store.trace.all (fun o => o.inp.fault.isNone),
        decide (ended w 6 = some (.withdraw 31 12 (withdrawalOf 10) (some ""),
          .error (.db .integrity))),
        decide (ended w 8 = some (.withdraw 99 12 (withdrawalOf 10) (some "k"),
          .ok (.moved ⟨92, .withdrawal, .completed, "INR", some "k"⟩ none)))))
    (v := (true, true, true)) (by decide +kernel)
  exact ⟨w, _, hg,
    fun o ho => Option.isNone_iff_eq_none.mp (List.all_eq_true.mp (congrArg Prod.fst hw) o ho),
    of_decide_eq_true (congrArg (fun v => v.2.1) hw), rfl,
    of_decide_eq_true (congrArg (fun v => v.2.2) hw), rfl⟩

end alone

end WalletLedger
