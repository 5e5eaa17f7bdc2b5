import WalletLedger.Isolation.Trail
import WalletLedger.Proof.Api
import WalletLedger.Proof.Effects

/-!
# Who can take money

Between a password and a debit lie a login, a token, a signature, a clock and a wallet's owner.
Nobody can sign a token but the service (`Unforged`), so whoever takes money out of a wallet has
presented a token that a login with the owner's address and password was answered with, and has
done so before it expired.
-/

namespace WalletLedger

open Isolation Prog

variable [Runtime] [Credentials] [Jwt] [Settings]

section trails

variable {i : Sid} {t : Task} {ws ws' : List Write} {os : List ApiObs}

/-! ## What a session in front of the services has been through -/

/-- A session in front of the services has closed, or is at what it has to do. -/
theorem frontSession_ended {α : Type} {p : FrontTx α} {r : Except Exn α}
    (h : Trail api.system.toEngine i t (frontSession p) ws os (ofExcept r) ws') :
    ∃ os' o ws₁, os = os' ++ [o] ∧ o.stmt = .inl .close
      ∧ Trail api.system.toEngine i t p ws os' (ofExcept r) ws₁ := by
  obtain ⟨r', os₁, os₂, ws₁, rfl, h₁, h₂⟩ := h.handle_ended
  rcases h₂.bind_ended with ⟨e, h₂, -⟩ | ⟨u, os₃, os₄, ws₂, rfl, h₃, h₄⟩
  · -- `close` does not fail
    obtain ⟨inp, db, aux, n, eff, -, hrun, hans, -⟩ := h₂.perform_ended
    rw [(api_run_close hrun).2.1] at hans
    exact absurd hans (by simp)
  · obtain ⟨inp, db, aux, n, eff, rfl, -, -, -⟩ := h₃.perform_ended
    obtain ⟨rfl, hr, rfl⟩ := h₄.ofExcept_inv
    rw [ofExcept_inj hr]
    exact ⟨os₁, _, ws₁, rfl, rfl, h₁⟩

theorem now_ended {r : Except Exn Time}
    (h : Trail api.system.toEngine i t (ask .now) ws os (ofExcept r) ws') :
    ∃ o : ApiObs, os = [o] ∧ o.stmt = .inl .now ∧ r = .ok o.inp.now ∧ ws' = ws := by
  obtain ⟨inp, db, aux, n, eff, rfl, hrun, rfl, rfl⟩ := h.perform_ended
  obtain ⟨hcalm, hans⟩ := api_run_now hrun
  refine ⟨_, rfl, rfl, hans, ?_⟩
  cases (Option.some.inj hrun : ({ ans := .ok inp.now, aux := aux } : Effect Write Res Outside
    Exn Time) = eff)
  simp [Effect.buffer]

/-- A token has been issued to the account found under an address whose password was right. -/
theorem login_ok {username password : String} {tk : AccessToken}
    (h : Trail api.system.toEngine i t (Api.login username password) [] os
      (ofExcept (.ok tk)) ws') :
    ∃ (o o' : ApiObs) (u : User), os = [o, o'] ∧ o.db.userByEmail username = some u
      ∧ Credentials.verifyPassword password u.passwordHash = true ∧ o'.stmt = .inl .now
      ∧ tk = ⟨Jwt.encode ⟨some (Wire.uuidStr u.id),
          some (expiry o'.inp.now Settings.accessTokenExpiryMinutes)⟩, "bearer"⟩ := by
  obtain ⟨u, os₁, os₂, ws₁, rfl, h₁, h₂⟩ := h.bind_ok
  cases u with
  | none => exact h₂.raise_ok.elim
  | some u =>
      have hauth : ∃ o : ApiObs, os₁ = [o] ∧ o.db.userByEmail username = some u
          ∧ Credentials.verifyPassword password u.passwordHash = true := by
        obtain ⟨inp, db, aux, n, eff, os₃, rfl, hrun, h₃⟩ := Trail.call_ended h₁
        obtain ⟨-, hgood, hbad⟩ := api_run_userByEmail hrun
        have hgood : inp.fault = none → eff.ans = .ok (db.userByEmail username) := hgood
        cases hf : inp.fault with
        | some f =>
            rw [hbad f hf] at h₃
            exact h₃.raise_ok.elim
        | none =>
            rw [hgood hf] at h₃
            have hnone : ∀ {ws : List Write} {os : List ApiObs}, ¬Trail api.system.toEngine i t
                (ret none : FrontTx (Option User)) ws os (ofExcept (.ok (some u))) ws₁ := by
              intro ws os h
              obtain ⟨-, hr, -⟩ := h.ret_inv
              exact absurd (@ofExcept_inj _ _ _ _ (.ok (some u)) (.ok none) hr) (by simp)
            cases hfound : db.userByEmail username with
            | none =>
                rw [hfound] at h₃
                exact (hnone h₃).elim
            | some v =>
                rw [hfound] at h₃
                have h₃ : Trail api.system.toEngine i t
                  ((if Credentials.verifyPassword password v.passwordHash
                    = true then ret (some v) else ret none :
                      Tx (Option User)).behind id) (eff.buffer [])
                    os₃ (ofExcept (.ok (some u))) ws₁ := h₃
                by_cases hv : Credentials.verifyPassword password v.passwordHash = true
                · rw [if_pos hv] at h₃
                  obtain ⟨rfl, hr, -⟩ := h₃.ret_inv
                  cases @ofExcept_inj _ _ _ _ (.ok (some u)) (.ok (some v)) hr
                  exact ⟨_, rfl, hfound, hv⟩
                · rw [if_neg hv] at h₃
                  exact (hnone h₃).elim
      obtain ⟨o, rfl, hfound, hverified⟩ := hauth
      obtain ⟨tok, os₃, os₄, ws₂, rfl, h₃, h₄⟩ := h₂.bind_ok
      obtain ⟨rfl, hr, rfl⟩ := h₄.ret_inv
      obtain ⟨now, os₅, os₆, ws₃, rfl, h₅, h₆⟩ := h₃.bind_ok
      obtain ⟨o', rfl, ho', hnow, rfl⟩ := now_ended h₅
      obtain ⟨rfl, htok, rfl⟩ := h₆.ret_inv
      cases hnow
      have htok := @ofExcept_inj _ _ _ _ (.ok tok) (.ok _) htok
      have htk := @ofExcept_inj _ _ _ _ (.ok tk) (.ok _) hr
      refine ⟨o, o', u, rfl, hfound, hverified, ho', ?_⟩
      rw [Except.ok.inj htk, Except.ok.inj htok]
      rfl

end trails

/-! ## Looking leaves nothing to commit -/

/-- What a session that is only looking has left, and what it may still do. -/
theorem looks_trail {α : Type} {i : Sid} {t : Task} {Q : List ApiObs → Except Exn α → Prop}
    {p p' : FrontTx α} {pre os : List ApiObs} (hp : api.Looks i t Q pre p) {ws ws' : List Write}
    (h : Trail api.system.toEngine i t p ws os p' ws') (hws : ws = []) :
    ws' = [] ∧ api.Looks i t Q (pre ++ os) p' := by
  induction h generalizing pre with
  | nil p ws =>
      rw [List.append_nil]
      exact ⟨hws, hp⟩
  | cons hr _ ih =>
      subst hws
      obtain ⟨hcalm, hk⟩ := hp _ _ _ _ _ hr
      have hrest := ih hk (by
        unfold Effect.buffer
        split
        · rw [hcalm.writes]
          rfl
        · rfl
        · rfl)
      rw [List.append_assoc] at hrest
      exact hrest

/-- It is not at a commit. -/
theorem looks_no_commit {α : Type} {i : Sid} {t : Task} {Q : List ApiObs → Except Exn α → Prop}
    {p : FrontTx α} {pre os : List ApiObs} (hp : api.Looks i t Q pre p) {ws' : List Write}
    {q : Stmt ⊕ Look}
    {k : Except Exn (FrontAns Stmt.Ans Look.Ans q) → FrontTx α}
    (h : Trail api.system.toEngine i t p [] os (.call q k) ws') {inp : Inp}
    {db : Db} {aux : Outside}
    {e : Effect Write Res Outside Exn (FrontAns Stmt.Ans Look.Ans q)}
    (hrun : api.system.run q inp i db aux = some e) : e.ctl ≠ .commit :=
  ((looks_trail hp h rfl).2 inp db aux 0 e hrun).1.ctl

/-- How it has ended. -/
theorem looks_ended {α : Type} {i : Sid} {t : Task} {Q : List ApiObs → Except Exn α → Prop}
    {p : FrontTx α} {pre os : List ApiObs} (hp : api.Looks i t Q pre p) {ws' : List Write}
    {r : Except Exn α}
    (h : Trail api.system.toEngine i t p [] os (ofExcept r) ws') : ws' = [] ∧ Q (pre ++ os) r := by
  obtain ⟨hws, hend⟩ := looks_trail hp h rfl
  cases r with
  | ok a => exact ⟨hws, hend⟩
  | error e => exact ⟨hws, hend⟩

/-- What was there is there. -/
theorem api_grows {db₀ : Db} {w : ApiWorld} (h : ApiReachable db₀ w) {n : Nat}
    (hn : n ≤ w.store.commits.length) :
    (w.store.past api.system.toEngine db₀ n).Grows w.store.db := by
  obtain ⟨w₀, hr, hs⟩ := api_shadowed h
  have hlen : w.store.commits.length = w₀.store.commits.length := by
    rw [← hs.store.commits, List.length_map]
  have hev : Evolves (w₀.store.past engine db₀ n)
      (w₀.store.past engine db₀ w₀.store.commits.length) :=
    ⟨_, (reachable_settled hr).chain (hlen ▸ hn)⟩
  rw [hs.store.db, hr.past.1, hs.store.past]
  exact hev.grows

/-- Accounts that have been seen are there. -/
theorem api_users {db₀ : Db} {w : ApiWorld} (h : ApiReachable db₀ w) {o : ApiObs}
    (ho : o ∈ w.store.trace)
    {id : Uuid} {u : User} (hu : o.db.users.get id = some u) :
    w.store.db.users.get id = some u := by
  obtain ⟨hclock, hseen⟩ := h.past.2 o ho
  refine (api_grows h hclock).users _ _ ?_
  rw [← hseen]
  exact hu

/-! ## What is committed has been let through -/

variable {db₀ : Db} {w w' : ApiWorld}

/-- A refusal only closes its session. -/
theorem looks_refusal {i : Sid} {t : Task} (x : Exn) :
    api.Looks i t (fun _ r => r = .error x) [] (frontSession (raise x : FrontTx Answer)) :=
  Looks.session rfl (fun _ _ _ h => h)

/-- **A route commits only for a user whose token was good**: it was checked against the clock, and
the account it names was there. -/
theorem commit_admitted (h : ApiReachable db₀ w) {n : Nat} {c : Commit Write Task}
    (hc : w.store.commits[n]? = some c) {token : String} {route : WalletRoute}
    (ht : c.tag = .wallets token route) :
    ∃ u : User, Recognised token (w.store.script c.sid) u ∧ w.store.db.users.get u.id = some u := by
  have hag : api.system.again c.tag = none := by
    show ((Task.request c.tag).next).map _ = none
    rw [ht, wallets_once]
    rfl
  obtain ⟨os, d, os', K, e, hscript, -, -, htrail, hrun, hctl⟩ := h.committed hc hag
  have hstart : api.system.start c.tag = frontSession (Api.wallets token route) := by
    show Task.program c.tag = _
    rw [ht]
    rfl
  rw [hstart] at htrail
  -- it is past the token, or it is not at a commit
  have hpast : ∃ (u : User) (os₁ os₂ : List ApiObs) (ws₁ : List Write), os = os₁ ++ os₂
      ∧ Trail api.system.toEngine c.sid c.tag (getCurrentUser token) [] os₁
        (ofExcept (.ok u)) ws₁ := by
    rw [frontSession, Api.wallets, bind_eq, handle_handle] at htrail
    rcases htrail.handle_inv with ⟨q, k, h₁, hp⟩ | ⟨r, os₁, os₂, ws₁, rfl, h₁, h₂⟩
    · exfalso
      injection hp with hq hk
      subst hq
      exact looks_no_commit (looks_getCurrentUser token) h₁ hrun hctl
    · cases r with
      | ok u => exact ⟨u, os₁, os₂, ws₁, rfl, h₁⟩
      | error x =>
          exfalso
          obtain ⟨rfl, -⟩ := looks_ended (looks_getCurrentUser token) h₁
          exact looks_no_commit (looks_refusal x) h₂ hrun hctl
  obtain ⟨u, os₁, os₂, ws₁, rfl, h₁⟩ := hpast
  have hu : Recognised token os₁ u := (looks_ended (looks_getCurrentUser token) h₁).2
  have hu : Recognised token (w.store.script c.sid) u := hu.mono (fun o ho => by
    rw [hscript]
    exact List.mem_append_left _ (List.mem_append_left _ ho))
  obtain ⟨-, -, -, -, read, -, row⟩ := id hu
  exact ⟨u, hu, api_users h (mem_script.mp read).1 row⟩

/-! ## What is turned away -/

/-- The token a task carries. -/
def Task.token : Task → Option String
  | .readMe token | .wallets token _ => some token
  | _ => none

/-- A task that needs a user, as what it does with the user. -/
def Task.needsUser (t : Task) (token : String) (p : User → FrontTx Answer) : Prop :=
  t.program = frontSession (getCurrentUser token >>= p) ∧ api.system.again t = none

theorem needsUser_wallets (token : String) (route : WalletRoute) :
    (Task.wallets token route).needsUser token
    (fun u => (route.body u.id).behind Answer.reply) := by
  refine ⟨rfl, ?_⟩
  show ((Task.request (.wallets token route)).next).map _ = none
  rw [wallets_once]
  rfl

theorem needsUser_readMe (token : String) :
    (Task.readMe token).needsUser token (fun u => ret (.account (.ofUser u))) := by
  refine ⟨?_, rfl⟩
  show frontSession (Answer.account <$> (getCurrentUser token >>= fun u => ret (.ofUser u))) = _
  exact congrArg frontSession (bind_assoc _ _ _)

/-- The token has not been good for an account that is there, so far in this session. -/
def TurnedAway (w : ApiWorld) (i : Sid) (token : String) : Prop :=
  ∀ o ∈ w.store.script i, ∀ o' ∈ w.store.script i, o.stmt = .inl .now → ∀ id,
    ((jwtDecode token o.inp.now).bind Claims.sub).bind Wire.uuidOfStr = some id →
      o'.db.users.get id = none

/-- **Without a good token of an account that is there nothing happens**: no route is reached,
nothing is written or committed, and the only answer is the 401 that does not say which of them
was missing. -/
theorem reachable_turnedAway (w : ApiWorld) (h : ApiReachable db₀ w) (i : Sid) (t : Task)
    (token : String)
    (ht : t.token = some token) (p : FrontTx Answer) (hs : w.sess i = some (t, p))
    (haway : TurnedAway w i token) :
    w.store.pending i = [] ∧ (∀ c ∈ w.store.commits, c.sid ≠ i)
      ∧ ∀ r, finished w i = some (t, r) → ∃ e, r = .error e
        ∧ Refused token (w.store.script i) e := by
  obtain ⟨f, hprog, hag⟩ : ∃ f, t.needsUser token f := by
    cases t with
    | readMe tok =>
        cases ht
        exact ⟨_, needsUser_readMe token⟩
    | wallets tok route =>
        cases ht
        exact ⟨_, needsUser_wallets token route⟩
    | _ => exact absurd ht (by simp [Task.token])
  have htrail := h.trail.2 i t p hs hag
  have hstart : api.system.start t = (getCurrentUser token).handle
      (fun r => frontSession (andThen f r)) :=
    hprog.trans (handle_handle _ _ _)
  rw [hstart] at htrail
  -- the current user has not been found
  have hnobody : ∀ {u : User} {os₁ os₂ : List ApiObs} {ws₁ : List Write},
    w.store.script i = os₁ ++ os₂ →
      ¬Trail api.system.toEngine i t (getCurrentUser token) [] os₁ (ofExcept (.ok u)) ws₁ := by
    intro u os₁ os₂ ws₁ hsc h₁
    have hrec : Recognised token os₁ u := (looks_ended (looks_getCurrentUser token) h₁).2
    have hos : os₁ ⊆ w.store.script i := by
      rw [hsc]
      exact List.subset_append_left _ _
    obtain ⟨checked, clock, good, names, read, -, row⟩ := hrec.mono hos
    have hnone := haway _ checked _ read clock u.id (by rw [good, Option.bind_some]; exact names)
    rw [row] at hnone
    exact absurd hnone (by simp)
  have hcommits : ∀ c ∈ w.store.commits, c.sid ≠ i := by
    intro c hc hsid
    subst hsid
    have htag := (h.signed.tags _ t p hs).1 c hc rfl
    obtain ⟨n, hn⟩ := List.getElem?_of_mem hc
    obtain ⟨os, d, os', K, e, hscript, -, -, htr, hrun, hctl⟩ := h.committed hn (htag ▸ hag)
    rw [htag, hstart] at htr
    -- nothing is committed while the token is looked at, nor after a refusal
    rcases htr.handle_inv with ⟨q, k, h₁, hp⟩ | ⟨r, os₁, os₂, ws₁, rfl, h₁, h₂⟩
    · injection hp with hq hk
      subst hq
      exact looks_no_commit (looks_getCurrentUser token) h₁ hrun hctl
    · cases r with
      | ok u => exact hnobody (hscript.trans (List.append_assoc _ _ _)) h₁
      | error x =>
          obtain ⟨rfl, -⟩ := looks_ended (looks_getCurrentUser token) h₁
          exact looks_no_commit (looks_refusal x) h₂ hrun hctl
  rcases htrail.handle_inv with ⟨q, k, h₁, rfl⟩ | ⟨r, os₁, os₂, ws₁, hsc, h₁, h₂⟩
  · -- the token is still being looked at, so there is no answer yet
    refine ⟨(looks_trail (looks_getCurrentUser token) h₁ rfl).1, hcommits, fun r hr => ?_⟩
    have hend := finished_sess hr
    rw [hs] at hend
    injection hend with hend
    injection hend with _ hend
    cases r with
    | ok a => exact absurd hend (by simp [Prog.ofExcept])
    | error e => exact absurd hend (by simp [Prog.ofExcept])
  · cases r with
    | ok u => exact (hnobody hsc h₁).elim
    | error x =>
        obtain ⟨rfl, hx⟩ := looks_ended (looks_getCurrentUser token) h₁
        have hx : Refused token os₁ x := hx
        refine ⟨(looks_trail (looks_refusal x) h₂ rfl).1, hcommits, fun r hr => ⟨x, ?_, ?_⟩⟩
        · have hp := finished_sess hr
          rw [hs] at hp
          injection hp with hp
          injection hp with _ hp
          rw [hp] at h₂
          exact (looks_ended (looks_refusal x) h₂).2
        · rw [hsc]
          exact hx.mono (List.subset_append_left _ _)

/-! ## Tokens nobody else can sign -/

/-- By now a login with these credentials has been answered with this token, issued at `t`. -/
def Issued (db₀ : Db) (w : ApiWorld) (username password token : String) (t : Time) : Prop :=
  ∃ (w₁ : ApiWorld) (i : Sid) (o : ApiObs), ApiReachable db₀ w₁ ∧ Later api.system w₁ w
    ∧ finished w₁ i = some (.login username password, .ok (.token ⟨token, "bearer"⟩))
    ∧ o ∈ w₁.store.script i ∧ o.stmt = .inl .now ∧ o.inp.now = t

/-- Whoever presents a token with the service's signature has it from the service. -/
def Unforged (db₀ : Db) (w : ApiWorld) : Action Task Inp Move → Prop
  | .spawn t => ∀ token, t.token = some token → Jwt.payload token ≠ none →
      ∃ username password issuedAt, Issued db₀ w username password token issuedAt
  | _ => True

theorem Issued.later {username password token : String} {t : Time}
    (h : Issued db₀ w username password token t) (hl : Later api.system w w') :
    Issued db₀ w' username password token t := by
  obtain ⟨w₁, i, o, hr, hl₁, hrest⟩ := h
  exact ⟨w₁, i, o, hr, hl₁.trans hl, hrest⟩

/-- **What a token says**: the account with the login's address and password, and when
it expires. -/
theorem Issued.account {username password token : String} {t : Time}
    (h : Issued db₀ w username password token t) :
    ∃ u : User, w.store.db.users.get u.id = some u ∧ u.email = username
      ∧ Credentials.verifyPassword password u.passwordHash = true
      ∧ token = Jwt.encode ⟨some (Wire.uuidStr u.id),
        some (expiry t Settings.accessTokenExpiryMinutes)⟩ := by
  obtain ⟨w₁, i, o, hr, hl, hend, ho, hnow, rfl⟩ := h
  have htrail := hr.trail.2 i _ _ (finished_sess hend) rfl
  obtain ⟨os, o₁, ws₁, hscript, hclose, hinner⟩ := frontSession_ended htrail
  obtain ⟨r, hlogin, hr'⟩ := hinner.map_ended
  cases r with
  | error e => exact absurd hr' (by simp [Except.map])
  | ok tk =>
      cases hr'
      obtain ⟨a, b, u, rfl, hfound, hverified, hb, htk⟩ := login_ok hlogin
      have hbo : b = o := by
        rw [hscript] at ho
        simp only [List.cons_append, List.nil_append, List.mem_cons,
          List.not_mem_nil, or_false] at ho
        rcases ho with rfl | rfl | rfl
        · -- the first statement looks for the account
          obtain ⟨inp, db, aux, n, e, os', hos, -, -⟩ := Trail.call_ended hlogin
          cases hos
          exact absurd hnow (by simp)
        · rfl
        · rw [hclose] at hnow
          exact absurd hnow (by simp)
      subst hbo
      have hmem : a ∈ w₁.store.trace :=
        (mem_script.mp (show a ∈ w₁.store.script i by rw [hscript]; simp)).1
      obtain ⟨cs, os, -, hos, -⟩ := hl.history
      have hget := Table.get_of_mem (List.mem_of_find?_eq_some hfound)
      refine ⟨u, api_users (hr.later hl) (by rw [hos]; exact List.mem_append_left _ hmem) hget,
        by simpa using List.find?_some hfound, hverified, congrArg AccessToken.accessToken htk⟩

/-- The wallet a route takes money from. -/
def WalletRoute.source : WalletRoute → Option Uuid
  | .transfer w _ _ | .withdraw w _ _ => some w
  | _ => none

/-- A commit takes money only for the subject of a token. -/
theorem debit_route (h : ApiReachable .empty w) {n : Nat} {c : Commit Write Task}
    (hc : w.store.commits[n]? = some c) {id : Uuid} {x y : Wallet}
    (hx : (w.store.past api.system.toEngine .empty n).wallets.get id = some x)
    (hy : (w.store.past api.system.toEngine .empty (n + 1)).wallets.get id = some y)
    (hlt : y.availableBalance < x.availableBalance) :
    ∃ token route, c.tag = .wallets token route ∧ route.source = some id
      ∧ subjectOf token = some x.userId := by
  obtain ⟨w₀, hr, hs⟩ := api_shadowed h
  have hc₀ : w₀.store.commits[n]? = some (api.committed c) := by
    rw [← hs.store.commits, List.getElem?_map, hc]
    rfl
  rw [hs.store.past] at hx hy
  have hframed := ((reachable_settled hr).legal hc₀).framed
  have hy : ((w₀.store.past engine .empty n).applyAll (api.committed c).writes).wallets.get
      id = some y := by
    rw [← past_succ hc₀]
    exact hy
  obtain ⟨hdeb, howner⟩ := hframed.debits id x y hx hy hlt
  have hdeb : c.tag.request.debited = some id := hdeb
  have howner : x.userId = c.tag.request.requester := howner
  cases ht : c.tag with
  | wallets token route =>
      rw [ht] at hdeb howner
      cases hsub : subjectOf token with
      | none =>
          simp only [Task.request, hsub] at hdeb
          exact absurd hdeb (by simp [Request.debited])
      | some u =>
          simp only [Task.request, hsub, Option.map_some, Option.getD_some] at hdeb howner
          refine ⟨token, route, rfl, ?_⟩
          cases route with
          | transfer | withdraw => exact ⟨hdeb, by rw [howner]; exact hsub⟩
          | _ => exact absurd hdeb (by simp [WalletRoute.request, Request.debited])
  | job j =>
      rw [ht] at hdeb
      cases j <;> exact absurd hdeb (by simp [Task.request, Job.request, Request.debited])
  | login | register | readMe | readiness | snapshot =>
      rw [ht] at hdeb
      exact absurd hdeb (by simp [Task.request, Request.debited])

/-- A commit takes money from a wallet for whoever its owner's address and password have been given
a token, presented before it expired. -/
def Vouched (w : ApiWorld) (c : Commit Write Task) (id owner : Uuid) : Prop :=
  ∃ token route username password issuedAt u, c.tag = .wallets token route ∧ route.source = some id
    ∧ Issued .empty w username password token issuedAt
    ∧ w.store.db.users.get owner = some u ∧ u.email = username
    ∧ Credentials.verifyPassword password u.passwordHash = true
    ∧ ∃ o ∈ w.store.script c.sid, o.stmt = .inl .now
      ∧ o.inp.now < expiry issuedAt Settings.accessTokenExpiryMinutes * second

/-- **Money leaves a wallet only for a token that a login with the owner's address and password was
answered with**, presented before it expired. -/
theorem guided_authorized (hjwt : ∀ claims : Claims, Jwt.payload (Jwt.encode claims) = some claims)
    (w : ApiWorld) (h : Guided api.system (Unforged .empty) (ApiStore.start .empty) w) (n : Nat)
    (c : Commit Write Task) (hc : w.store.commits[n]? = some c) (id : Uuid) (x y : Wallet)
    (hx : (w.store.past api.system.toEngine .empty n).wallets.get id = some x)
    (hy : (w.store.past api.system.toEngine .empty (n + 1)).wallets.get id = some y)
    (hlt : y.availableBalance < x.availableBalance) :
    Vouched w c id x.userId := by
  obtain ⟨token, route, ht, hsource, hsub⟩ := debit_route h.reachable hc hx hy hlt
  obtain ⟨v, hrec, hv⟩ := commit_admitted h.reachable hc ht
  obtain ⟨ho, hnow, hgood, hid, -, -, -⟩ := hrec
  obtain ⟨claims, hclaims, -⟩ := Option.bind_eq_some_iff.mp hgood
  obtain ⟨hpayload, hlive⟩ := jwtDecode_some hclaims
  -- the token has been issued, since it has a good signature
  have hissued := (h.spawned (P := fun w t => ∀ token, t.token = some token
    → Jwt.payload token ≠ none →
      ∃ username password issuedAt, Issued .empty w username password token issuedAt)
    (fun _ _ hrule => hrule) (fun w a w' t hs hp token htok hpay => by
      obtain ⟨username, password, issuedAt, hi⟩ := hp token htok hpay
      exact ⟨username, password, issuedAt, hi.later (Later.refl.tail hs)⟩)).2.1 c
    (List.mem_of_getElem? hc) token (by rw [ht]; rfl) (by rw [hpayload]; simp)
  obtain ⟨username, password, issuedAt, hi⟩ := hissued
  obtain ⟨u, hu, hemail, hverified, htoken⟩ := hi.account
  have hdecoded : claims = ⟨some (Wire.uuidStr u.id),
      some (expiry issuedAt Settings.accessTokenExpiryMinutes)⟩ := by
    rw [htoken, hjwt] at hpayload
    exact (Option.some.inj hpayload).symm
  -- the owner is the account of the login
  have howner : u.id = x.userId := by
    rw [subjectOf, hpayload, hdecoded, Option.bind_some, Option.bind_some] at hsub
    exact Wire.eq_of_uuidOfStr hsub
  refine ⟨token, route, username, password, issuedAt, u, ht, hsource, hi, howner ▸ hu,
    hemail, hverified,
    _, ho, hnow, hlive _ (by rw [hdecoded])⟩

/-! ## Ann's first visit, by the rule -/

omit [Runtime] [Credentials] [Jwt] [Settings]

/-- The token is the one the second session has been answered with. -/
def vouchedFor (w : ApiWorld) : ApiAction → Bool
  | .spawn t =>
      match t.token with
      | some token =>
          decide (finished w 1
              = some (.login "ann@example.com" "password", .ok (.token ⟨token, "bearer"⟩)))
            && (w.store.script 1).any (fun o => decide (o.stmt = .inl .now))
      | none => true
  | _ => true

theorem vouchedFor_unforged {w : ApiWorld} {a : ApiAction} (h : PlainReachable w)
    (ha : vouchedFor w a = true) :
    @Unforged plainRuntime plainCredentials plainJwt plainSettings .empty w a := by
  cases a with
  | spawn t =>
      intro token htoken _
      simp only [vouchedFor, htoken, Bool.and_eq_true, decide_eq_true_eq, List.any_eq_true] at ha
      obtain ⟨hend, o, ho, hnow⟩ := ha
      exact ⟨_, _, _, w, 1, o, h, .refl, hend, ho, hnow, rfl⟩
  | exec | crash | env => trivial

theorem visit_authorized : ∃ w c, (@Guided _ _ _ _ _ _ _ _ _ _ _ _ plainApi.system
      (@Unforged plainRuntime plainCredentials plainJwt plainSettings .empty)
      (ApiStore.start .empty) w
    ∧ w.store.commits[3]? = some c
    ∧ (w.store.past plainApi.system.toEngine .empty 3).wallets.get 31
      = some ⟨31, 12, "INR", 100, 0, 0, 0⟩
    ∧ (w.store.past plainApi.system.toEngine .empty 4).wallets.get 31
      = some ⟨31, 12, "INR", 60, 0, 0, 0⟩)
    ∧ @Vouched plainRuntime plainCredentials plainJwt plainSettings w c 31 12 := by
  have hrun : (plainApi.system.guide vouchedFor (World.init (ApiStore.start .empty))
    visit).map (fun w =>
      ((w.store.past plainApi.system.toEngine .empty 3).wallets.get 31,
        (w.store.past plainApi.system.toEngine .empty 4).wallets.get 31, w.store.commits.length))
      = some (some ⟨31, 12, "INR", 100, 0, 0, 0⟩, some ⟨31, 12, "INR", 60, 0, 0, 0⟩, 4) := by
    decide +kernel
  obtain ⟨w, hw, hv⟩ := Option.map_eq_some_iff.mp hrun
  have hg : Guided plainApi.system (@Unforged plainRuntime plainCredentials plainJwt
    plainSettings .empty)
      (ApiStore.start .empty) w := Guided.init.guide vouchedFor_unforged hw
  have hx := congrArg Prod.fst hv
  have hy := congrArg (fun v => v.2.1) hv
  have hlen : w.store.commits.length = 4 := congrArg (fun v => v.2.2) hv
  have hlt : 3 < w.store.commits.length := by rw [hlen]; decide
  exact ⟨w, _, ⟨hg, List.getElem?_eq_getElem hlt, hx, hy⟩,
    @guided_authorized plainRuntime plainCredentials plainJwt plainSettings payload_plain w hg 3 _
      (List.getElem?_eq_getElem hlt) 31 _ _ hx hy (by decide)⟩

/-- Half an hour later she asks for her money with the same token. -/
def afterExpiry : List ApiAction :=
  signIn ++ [.spawn (.wallets annsToken (.withdraw 31 (withdrawalOf 40) none))]
    ++ List.replicate 2 (.exec 2 { now := 1800 * second })

theorem afterExpiry_turnedAway : ∃ w p r, (PlainReachable w
      ∧ w.sess 2 = some (.wallets annsToken (.withdraw 31 (withdrawalOf 40) none), p)
      ∧ @TurnedAway plainJwt w 2 annsToken
      ∧ finished w 2 = some (.wallets annsToken (.withdraw 31 (withdrawalOf 40) none), r)
      ∧ r = .error credentialsError)
    ∧ w.store.pending 2 = [] ∧ (∀ c ∈ w.store.commits, c.sid ≠ 2) ∧ ∃ e, r = .error e
      ∧ @Refused plainJwt annsToken (w.store.script 2) e := by
  obtain ⟨w, hr, hw⟩ := exists_runApi afterExpiry (fun w => (finished w 2,
      (w.store.script 2).map (fun o => (o.stmt, o.inp.now))))
    (v := (some (.wallets annsToken (.withdraw 31 (withdrawalOf 40) none), .error credentialsError),
      [(.inl .now, 1800 * second), (.inl .close, 1800 * second)])) (by decide +kernel)
  have hend := congrArg Prod.fst hw
  have hscript : (w.store.script 2).map (fun o => (o.stmt, o.inp.now))
      = [(.inl .now, 1800 * second), (.inl .close, 1800 * second)] := congrArg Prod.snd hw
  have haway : @TurnedAway plainJwt w 2 annsToken := by
    intro o ho o' _ hnow id hid
    have hmem : (o.stmt, o.inp.now) ∈ (w.store.script 2).map (fun o => (o.stmt, o.inp.now)) :=
      List.mem_map_of_mem ho
    rw [hscript, hnow] at hmem
    have htime : o.inp.now = 1800 * second := by simpa using hmem
    rw [htime] at hid
    have hnone : @jwtDecode plainJwt annsToken (1800 * second) = none := by decide +kernel
    rw [hnone] at hid
    exact absurd hid (by simp)
  obtain ⟨hpend, hcommits, hall⟩ := @reachable_turnedAway plainRuntime plainCredentials
    plainJwt plainSettings
    .empty w hr 2 _ annsToken rfl _ (finished_sess hend) haway
  exact ⟨w, _, _, ⟨hr, finished_sess hend, haway, hend, rfl⟩, hpend, hcommits, hall _ hend⟩

end WalletLedger
