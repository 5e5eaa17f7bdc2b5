import WalletLedger.Isolation.Sequential
import WalletLedger.Proof.Authorized

/-!
# What a token is good for

A token that a login has been answered with is accepted in every later state, as the account of that
login, until it expires, and never again. Nothing is kept of it on the server: it cannot be taken
back before.
-/

namespace WalletLedger

open Isolation Prog

variable [Runtime] [Credentials] [Jwt] [Settings]

section alone

variable {i : Sid} {t : Task} {inp : Inp} {s : ApiStore}

/-- Session `i` has only looked since: there is no more than the history of it, and it has no
transaction open. -/
structure Looked (i : Sid) (s s' : ApiStore) : Prop where
  idle : Idle i s'
  db : s'.db = s.db
  aux : s'.aux = s.aux
  pending : s'.pending = s.pending
  locks : s'.locks = s.locks
  commits : s'.commits = s.commits

omit [Runtime] [Credentials] [Jwt] [Settings] in
theorem Looked.trans {s₁ s₂ : ApiStore} (h : Looked i s s₁) (h' : Looked i s₁ s₂) :
    Looked i s s₂ where
  idle := h'.idle
  db := h'.db.trans h.db
  aux := h'.aux.trans h.aux
  pending := h'.pending.trans h.pending
  locks := h'.locks.trans h.locks
  commits := h'.commits.trans h.commits

/-- A calm statement is answered at once and changes nothing. -/
theorem exec_calm (hi : Idle i s) {q : Stmt ⊕ Look}
    {e : Effect Write Res Outside Exn (FrontAns Stmt.Ans Look.Ans q)}
    (he : api.system.run q inp i s.db s.aux = some e) (hcalm : e.Calm s.aux) :
    ∃ s', exec api.system.toEngine i t q inp s = some (e.ans, s') ∧ Looked i s s' := by
  have hview : s.view api.system.toEngine i = s.db := by
    rw [Store.view, hi.pending]
    rfl
  rw [← hview] at he
  obtain ⟨s', hx⟩ := exec_lockFree (t := t) he hcalm.locks
  obtain ⟨e', he', -, -, hs'⟩ := exec_cases hx
  cases he.symm.trans he'
  have hidle : Idle i (s.observe i t q inp e.ans.isOk) := ⟨hi.pending, hi.locks⟩
  rw [Front.settle_calm (S := api.system) hidle hcalm] at hs'
  subst hs'
  exact ⟨_, hx, hidle, rfl, rfl, rfl, rfl, rfl⟩

/-- The user a token stands for, at a time, among the accounts there are. -/
def currentUser (db : Db) (token : String) (now : Time) : Except Exn User :=
  match (((jwtDecode token now).bind Claims.sub).bind Wire.uuidOfStr).bind db.users.get with
  | some u => .ok u
  | none => .error credentialsError

theorem runAlone_decode (hi : Idle i s) (token : String) :
    ∃ s', runAlone api.system.toEngine i t inp (decodeAccessToken token) s
      = some (.ok ((jwtDecode token inp.now).bind Claims.sub), s') ∧ Looked i s s' := by
  have hrun : api.system.run (.inl .now) inp i s.db s.aux
    = some { ans := .ok inp.now, aux := s.aux } := rfl
  obtain ⟨s', hx, hs⟩ := exec_calm (t := t) hi hrun ⟨rfl, rfl, by simp, rfl⟩
  refine ⟨s', (runAlone_bind (runAlone_perform.trans hx)).trans ?_, hs⟩
  cases jwtDecode token inp.now with
  | none => rfl
  | some c => rfl

/-- `get_current_user`, where the server does not fail. -/
theorem runAlone_getCurrentUser (hi : Idle i s) (hf : inp.fault = none) (token : String) :
    ∃ s', runAlone api.system.toEngine i t inp (getCurrentUser token) s
      = some (currentUser s.db token inp.now, s') ∧ Looked i s s' := by
  obtain ⟨s₁, hx₁, hs₁⟩ := @runAlone_decode _ _ _ _ i t inp s hi token
  unfold currentUser
  cases hsub : (jwtDecode token inp.now).bind Claims.sub with
  | none =>
      rw [hsub] at hx₁
      exact ⟨s₁, runAlone_bind hx₁, hs₁⟩
  | some sub =>
      rw [hsub] at hx₁
      cases hid : Wire.uuidOfStr sub with
      | none =>
          refine ⟨s₁, (runAlone_bind hx₁).trans ?_, hs₁⟩
          simp only [hid, Option.bind_some, Option.bind_none]
          rfl
      | some id =>
          have hrun : api.system.run (.inr (.selectUserById id)) inp i s₁.db s₁.aux
              = some { ctl := .stay, ans := .ok (s₁.db.users.get id), aux := s₁.aux } := by
            have hlook : api.look (.selectUserById id) inp s₁.db = .ok (s₁.db.users.get id) := by
              show Look.run _ _ _ = _
              rw [Look.run, hf]
              rfl
            show some _ = some _
            rw [hlook]
            rfl
          obtain ⟨s₂, hx₂, hs₂⟩ := exec_calm (t := t) hs₁.idle hrun ⟨rfl, rfl, by simp, rfl⟩
          refine ⟨s₂, (runAlone_bind hx₁).trans ?_, hs₁.trans hs₂⟩
          simp only [hid, Option.bind_some]
          refine (runAlone_bind (runAlone_perform.trans hx₂)).trans ?_
          rw [hs₁.db]
          cases s.db.users.get id with
          | none => rfl
          | some u => rfl

/-- Closing changes nothing either. -/
theorem exec_frontClose (inp : Inp) (hi : Idle i s) :
    ∃ s', exec api.system.toEngine i t (.inl .close) inp s = some (.ok (), s') ∧ Looked i s s' := by
  have hclose : api.system.run (.inl .close) inp i s.db s.aux
      = some { ctl := .abort, ans := .ok (), aux := s.aux } := rfl
  exact exec_calm hi hclose ⟨rfl, rfl, by simp, rfl⟩

/-- `GET /users/me`. -/
theorem runAlone_readMe (hi : Idle i s) (hf : inp.fault = none) (token : String) :
    ∃ s', runAlone api.system.toEngine i t inp (Task.readMe token).program s
      = some ((currentUser s.db token inp.now).map (fun u => .account (.ofUser u)), s') := by
  obtain ⟨s₁, hx₁, hs₁⟩ := runAlone_getCurrentUser (t := t) hi hf token
  obtain ⟨s₂, hx₂, -⟩ := exec_frontClose (t := t) inp hs₁.idle
  refine ⟨s₂, ?_⟩
  have hme : runAlone api.system.toEngine i t inp (Answer.account <$> Api.readMe token) s
      = some ((currentUser s.db token inp.now).map (fun u => .account (.ofUser u)), s₁) := by
    cases hu : currentUser s.db token inp.now with
    | ok u =>
        rw [hu] at hx₁
        have hread : runAlone api.system.toEngine i t inp (Api.readMe token) s
            = some (.ok (.ofUser u), s₁) :=
          runAlone_bind hx₁
        exact runAlone_bind hread
    | error e =>
        rw [hu] at hx₁
        exact runAlone_bind_error (runAlone_bind_error hx₁)
  refine (runAlone_handle hme).trans ((runAlone_bind (runAlone_perform.trans hx₂)).trans ?_)
  cases currentUser s.db token inp.now with
  | ok u => rfl
  | error e => rfl

/-- **A wallet route runs as the services' own request of the user**, or only closes. -/
theorem runAlone_wallets (hi : Idle i s) (hf : inp.fault = none) (token : String)
    (route : WalletRoute) :
    ∃ s', Looked i s s' ∧ runAlone api.system.toEngine i t inp (Task.wallets token route).program s
      = match currentUser s.db token inp.now with
        | .ok u =>
            runAlone api.system.toEngine i t inp
              ((route.request u.id).program.behind Answer.reply) s'
        | .error e => some (.error e, s') := by
  obtain ⟨s₁, hx₁, hs₁⟩ := runAlone_getCurrentUser (t := t) hi hf token
  cases hu : currentUser s.db token inp.now with
  | ok u =>
      rw [hu] at hx₁
      refine ⟨s₁, hs₁, ?_⟩
      rw [wallets_program]
      refine (runAlone_handle hx₁).trans ?_
      show _ = runAlone api.system.toEngine i t inp
        ((route.request u.id).program.behind Answer.reply) s₁
      rw [route.program_behind]
      rfl
  | error e =>
      rw [hu] at hx₁
      obtain ⟨s₂, hx₂, hs₂⟩ := exec_frontClose (t := t) inp hs₁.idle
      refine ⟨s₂, hs₁.trans hs₂, ?_⟩
      rw [wallets_program]
      exact (runAlone_handle hx₁).trans (runAlone_bind (runAlone_perform.trans hx₂))

end alone

/-- The next session has no transaction open. -/
theorem ApiReachable.idle {db₀ : Db} {w : ApiWorld} (h : ApiReachable db₀ w) :
    Idle w.next w.store := by
  obtain ⟨w₀, -, hs⟩ := api_shadowed h
  have hfresh := (hs.unborn w.next (Nat.le_of_eq hs.next.symm)).2
  exact ⟨(congrFun hs.store.pending _).trans hfresh.pending, fun r hr => hfresh.locks r
    (hs.store.locks ▸ hr)⟩

/-- **Whose an issued token is**: in every later state it is that of its account until it expires,
and nobody's from then on. -/
theorem Issued.currentUser (hjwt : ∀ claims : Claims, Jwt.payload (Jwt.encode claims) = some claims)
    {db₀ : Db} {w : ApiWorld} {username password token : String} {issuedAt : Time}
    (hi : Issued db₀ w username password token issuedAt) (hids : ∀ u ∈ w.store.db.users.rows,
      u.id < 2 ^ 128) :
    ∃ u : User, w.store.db.users.get u.id = some u ∧ u.email = username
      ∧ ∀ w' : ApiWorld, Later api.system w w'
        → ∀ now, WalletLedger.currentUser w'.store.db token now
        = if now < expiry issuedAt Settings.accessTokenExpiryMinutes * second then .ok u
          else .error credentialsError := by
  obtain ⟨u, hu, hemail, -, htoken⟩ := hi.account
  have hpayload : Jwt.payload token = some ⟨some (Wire.uuidStr u.id),
      some (expiry issuedAt Settings.accessTokenExpiryMinutes)⟩ := by rw [htoken, hjwt]
  have hparse : Wire.uuidOfStr (Wire.uuidStr u.id) = some u.id := by
    rw [Wire.uuidOfStr_uuidStr, if_pos (hids u (Table.mem_of_get hu))]
  refine ⟨u, hu, hemail, fun w' hl now => ?_⟩
  obtain ⟨w₁, i, o, hr, hl₁, -⟩ := hi
  have hr' : ApiReachable db₀ w' := hr.later (hl₁.trans hl)
  have hstays : w'.store.db.users.get u.id = some u := by
    obtain ⟨hclock, hseen⟩ := hl.past (hr.later hl₁)
    refine (api_grows hr' hclock).users _ _ ?_
    rw [← hseen]
    exact hu
  unfold WalletLedger.currentUser jwtDecode
  rw [hpayload]
  by_cases hlive : now < expiry issuedAt Settings.accessTokenExpiryMinutes * second
  · have hexp : ¬∃ e ∈ some (expiry issuedAt Settings.accessTokenExpiryMinutes),
      e * second ≤ now := by
      rintro ⟨e, he, hle⟩
      cases he
      exact Nat.not_le_of_lt hlive hle
    simp only [if_neg hexp, if_pos hlive, Option.bind_some, hparse, hstays]
  · have hexp : ∃ e ∈ some (expiry issuedAt Settings.accessTokenExpiryMinutes), e * second ≤ now :=
      ⟨_, rfl, Nat.le_of_not_lt hlive⟩
    simp only [if_pos hexp, if_neg hlive, Option.bind_none]

/-- **An issued token is its account's until it expires**: in every later state `/users/me` answers
it with that account and every wallet route runs as the request of that account, and from its expiry
on both answer with the 401. -/
theorem issued_honoured (hjwt : ∀ claims : Claims, Jwt.payload (Jwt.encode claims) = some claims)
    (db₀ : Db) (w : ApiWorld) (username password token : String) (issuedAt : Time)
    (hi : Issued db₀ w username password token issuedAt) (hids : ∀ u ∈ w.store.db.users.rows,
      u.id < 2 ^ 128) :
    ∃ u : User, w.store.db.users.get u.id = some u ∧ u.email = username
      ∧ ∀ w' : ApiWorld, Later api.system w w' → ∀ (t : Task) (inp : Inp), inp.fault = none →
        (∃ s', runAlone api.system.toEngine w'.next t inp (Task.readMe token).program w'.store
          = some (if inp.now < expiry issuedAt Settings.accessTokenExpiryMinutes * second
              then .ok (.account (.ofUser u)) else .error credentialsError, s'))
        ∧ ∀ route : WalletRoute, ∃ s', Looked w'.next w'.store s'
          ∧ runAlone api.system.toEngine w'.next t inp (Task.wallets token route).program w'.store
            = if inp.now < expiry issuedAt Settings.accessTokenExpiryMinutes * second
              then runAlone api.system.toEngine w'.next t inp
                ((route.request u.id).program.behind Answer.reply) s'
              else some (.error credentialsError, s') := by
  obtain ⟨u, hu, hemail, hwhose⟩ := hi.currentUser hjwt hids
  refine ⟨u, hu, hemail, fun w' hl t inp hf => ?_⟩
  obtain ⟨w₁, i, o, hr, hl₁, -⟩ := hi
  have hidle : Idle w'.next w'.store := ApiReachable.idle (hr.later (hl₁.trans hl))
  have hwho := hwhose w' hl inp.now
  refine ⟨?_, fun route => ?_⟩
  · obtain ⟨s', hx⟩ := runAlone_readMe (t := t) hidle hf token
    refine ⟨s', hx.trans ?_⟩
    rw [hwho]
    split <;> rfl
  · obtain ⟨s', hs, hx⟩ := runAlone_wallets (t := t) hidle hf token route
    refine ⟨s', hs, hx.trans ?_⟩
    by_cases hlive : inp.now < expiry issuedAt Settings.accessTokenExpiryMinutes * second
    · rw [if_pos hlive] at hwho ⊢
      rw [hwho]
    · rw [if_neg hlive] at hwho ⊢
      rw [hwho]

/-! ## Ann's token -/

omit [Runtime] [Credentials] [Jwt] [Settings]

/-- The program of a task, with readable tokens. -/
abbrev plainTask : Task → FrontTx Answer :=
  @Task.program plainJwt plainSettings plainRuntime plainCredentials

/-- Ann opens a wallet with her token. -/
def annOpens : Task := .wallets annsToken (.createWallet ⟨"INR", inr_length⟩)

theorem signIn_honoured : ∃ w,
    (@Issued plainRuntime plainCredentials plainJwt plainSettings .empty w
      "ann@example.com" "password" annsToken 0 ∧ (∀ u ∈ w.store.db.users.rows, u.id < 2 ^ 128)
      ∧ (runAlone plainApi.system.toEngine w.next annOpens { uuid := 31, now := 5 }
        (plainTask annOpens)
          w.store).map Prod.fst = some (.ok (.reply (.wallet ⟨31, 12, "INR", 0, 0, 5, 5⟩))))
    ∧ ∃ u : User, w.store.db.users.get u.id = some u ∧ u.email = "ann@example.com"
      ∧ ∀ w' : ApiWorld, Later plainApi.system w w' → ∀ (t : Task) (inp : Inp), inp.fault = none →
        (∃ s', runAlone plainApi.system.toEngine w'.next t inp
          (plainTask (.readMe annsToken)) w'.store
          = some (if inp.now < expiry 0 30 * second
              then .ok (.account (.ofUser u)) else .error credentialsError, s'))
        ∧ ∀ route : WalletRoute, ∃ s', Looked w'.next w'.store s'
          ∧ runAlone plainApi.system.toEngine w'.next t inp
            (plainTask (.wallets annsToken route)) w'.store
            = if inp.now < expiry 0 30 * second
              then runAlone plainApi.system.toEngine w'.next t inp
                ((@Request.program plainRuntime (route.request u.id)).behind Answer.reply) s'
              else some (.error credentialsError, s') := by
  obtain ⟨w, hr, hw⟩ := exists_runApi signIn (fun w => (finished w 1,
      (w.store.script 1).any (fun o => decide (o.stmt = .inl .now) && decide (o.inp.now = 0)),
      w.store.db.users.rows.all (fun u => decide (u.id < 2 ^ 128)),
      (runAlone plainApi.system.toEngine w.next annOpens { uuid := 31, now := 5 }
        (plainTask annOpens)
        w.store).map Prod.fst))
    (v := (some (.login "ann@example.com" "password",
      .ok (.token ⟨annsToken, "bearer"⟩)), true, true,
      some (.ok (.reply (.wallet ⟨31, 12, "INR", 0, 0, 5, 5⟩)))))
    (by decide +kernel)
  have hend := congrArg Prod.fst hw
  have hclock : (w.store.script 1).any (fun o => decide (o.stmt = .inl .now)
      && decide (o.inp.now = 0)) = true :=
    congrArg (fun v => v.2.1) hw
  have hids : w.store.db.users.rows.all (fun u => decide (u.id < 2 ^ 128)) = true :=
    congrArg (fun v => v.2.2.1) hw
  obtain ⟨o, ho, hnow⟩ := List.any_eq_true.mp hclock
  obtain ⟨hstmt, htime⟩ := Bool.and_eq_true_iff.mp hnow
  have hsmall : ∀ u ∈ w.store.db.users.rows, u.id < 2 ^ 128 := fun u hu =>
    of_decide_eq_true (List.all_eq_true.mp hids u hu)
  have hi : @Issued plainRuntime plainCredentials plainJwt plainSettings .empty w
      "ann@example.com" "password" annsToken 0 :=
    ⟨w, 1, o, hr, .refl, hend, ho, of_decide_eq_true hstmt, of_decide_eq_true htime⟩
  exact ⟨w, ⟨hi, hsmall, congrArg (fun v => v.2.2.2) hw⟩,
    @issued_honoured plainRuntime plainCredentials plainJwt plainSettings payload_plain
      .empty w _ _ _ _ hi hsmall⟩

end WalletLedger
