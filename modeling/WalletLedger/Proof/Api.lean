import WalletLedger.App.Api
import WalletLedger.Proof.Login

/-!
# The API is a front

Authentication only looks, and what it lets through runs as the session of the services it names.
So every run of the platform is a run of the services, with the same database, broker and cache,
and everything proved of those runs is true of the API.

What a session has executed decides which of the two it is (`apiGate`): whoever is `Recognised` gets
the answer of the services, and whoever is not is `Refused` with a reason that was so.
-/

namespace WalletLedger

open Isolation Prog

variable [Runtime] [Credentials] [Jwt] [Settings]

/-! ## What the statements in front of the services do -/

section

variable {inp : Inp} {i : Sid} {db : Db} {o : Outside}

theorem api_run_look {l : Look} {e : Effect Write Res Outside Exn l.Ans}
    (h : api.system.run (.inr l) inp i db o = some e) : e.Calm o ∧ e.ans = l.run inp db := by
  have he : e = { ctl := if (l.run inp db).isOk then .stay else .abort, ans := l.run inp db,
                  aux := o } :=
    (Option.some.inj h).symm
  subst he
  refine ⟨⟨rfl, rfl, ?_, rfl⟩, rfl⟩
  show (if (l.run inp db).isOk then Ctl.stay else .abort) ≠ .commit
  split <;> simp

theorem api_run_now {e : Effect Write Res Outside Exn Time}
    (h : api.system.run (.inl .now) inp i db o = some e) : e.Calm o ∧ e.ans = .ok inp.now := by
  cases (Option.some.inj h : ({ ans := .ok inp.now, aux := o } : Effect Write Res
    Outside Exn Time) = e)
  exact ⟨⟨rfl, rfl, by simp, rfl⟩, rfl⟩

theorem api_run_close {e : Effect Write Res Outside Exn Unit}
    (h : api.system.run (.inl .close) inp i db o = some e) :
    e.Calm o ∧ e.ans = .ok () ∧ e.ctl = .abort := by
  cases (Option.some.inj h :
    ({ ctl := .abort, ans := .ok (), aux := o } : Effect Write Res Outside Exn Unit) = e)
  exact ⟨⟨rfl, rfl, by simp, rfl⟩, rfl, rfl⟩

theorem api_run_userByEmail {email : String} {e : Effect Write Res Outside Exn (Option User)}
    (h : api.system.run (.inl (.selectUserByEmail email)) inp i db o = some e) :
    e.Calm o ∧ (inp.fault = none → e.ans = .ok (db.userByEmail email))
      ∧ ∀ f, inp.fault = some f → e.ans = .error (.db f) := by
  have he : e = reads inp o (db.userByEmail email) := (Option.some.inj h).symm
  subst he
  rcases reads_cases inp o (db.userByEmail email) with ⟨f, hf, he⟩ | ⟨hf, he⟩
  · rw [he]
    refine ⟨⟨rfl, rfl, by simp [failed], rfl⟩, fun h => ?_, fun f' h => ?_⟩
    · rw [hf] at h
      exact absurd h (by simp)
    · rw [hf] at h
      rw [Option.some.inj h]
      rfl
  · rw [he]
    refine ⟨⟨rfl, rfl, by simp, rfl⟩, fun _ => rfl, fun f h => ?_⟩
    rw [hf] at h
    exact absurd h (by simp)

end

/-! ## Who is asking -/

/-- The token was good when it was checked, and the account it named was there when it was read. -/
inductive Recognised (token : String) (os : List ApiObs) (u : User) : Prop where
  | intro {o o' : ApiObs} {s : String} (checked : o ∈ os) (clock : o.stmt = .inl .now)
      (good : (jwtDecode token o.inp.now).bind Claims.sub = some s)
      (names : Wire.uuidOfStr s = some u.id) (read : o' ∈ os)
      (byId : o'.stmt = .inr (.selectUserById u.id)) (row : o'.db.users.get u.id = some u) :
      Recognised token os u

/-- Why nobody is asking. -/
inductive Refused (token : String) (os : List ApiObs) : Exn → Prop where
  /-- The token was not good when it was checked, or names no account. -/
  | invalid {o : ApiObs} (checked : o ∈ os) (clock : o.stmt = .inl .now)
      (bad : ((jwtDecode token o.inp.now).bind Claims.sub).bind Wire.uuidOfStr = none) :
      Refused token os credentialsError
  /-- The account it names was not there. -/
  | unknown {o o' : ApiObs} {id : Uuid} (checked : o ∈ os) (clock : o.stmt = .inl .now)
      (good : ((jwtDecode token o.inp.now).bind Claims.sub).bind Wire.uuidOfStr = some id)
      (read : o' ∈ os) (byId : o'.stmt = .inr (.selectUserById id))
        (row : o'.db.users.get id = none) :
      Refused token os credentialsError
  /-- The read of that account has failed. -/
  | failed {o o' : ApiObs} {id : Uuid} {f : DbError} (checked : o ∈ os) (clock : o.stmt = .inl .now)
      (good : ((jwtDecode token o.inp.now).bind Claims.sub).bind Wire.uuidOfStr = some id)
      (read : o' ∈ os) (byId : o'.stmt = .inr (.selectUserById id)) (ok : o'.ok = false)
      (fault : o'.inp.fault = some f) : Refused token os (.db f)

/-- How `get_current_user` ends. -/
def Identified (token : String) (os : List ApiObs) : Except Exn User → Prop
  | .ok u => Recognised token os u
  | .error e => Refused token os e

section

omit [Runtime] [Credentials] [Settings]

variable {token : String} {os os' : List ApiObs}

theorem Recognised.mono {u : User} (h : Recognised token os u) (hos : os ⊆ os') :
    Recognised token os' u := by
  obtain ⟨checked, clock, good, names, read, byId, row⟩ := h
  exact .intro (hos checked) clock good names (hos read) byId row

theorem Refused.mono {e : Exn} (h : Refused token os e) (hos : os ⊆ os') : Refused token os' e := by
  cases h with
  | invalid checked clock bad => exact .invalid (hos checked) clock bad
  | unknown checked clock good read byId row =>
      exact .unknown (hos checked) clock good (hos read) byId row
  | failed checked clock good read byId ok fault =>
      exact .failed (hos checked) clock good (hos read) byId ok fault

/-- A token that is good at some time is good, and has not expired then. -/
theorem jwtDecode_some {now : Time} {c : Claims} (h : jwtDecode token now = some c) :
    Jwt.payload token = some c ∧ ∀ e, c.exp = some e → now < e * second := by
  unfold jwtDecode at h
  split at h
  · rename_i c' hc
    split at h
    · exact absurd h (by simp)
    · rename_i hexp
      cases Option.some.inj h
      exact ⟨hc, fun e he => Nat.lt_of_not_le (fun hle => hexp ⟨e, he, hle⟩)⟩
  · exact absurd h (by simp)

/-- **Whoever is recognised is the subject of the token.** -/
theorem Recognised.subject {u : User} (h : Recognised token os u) :
    subjectOf token = some u.id := by
  obtain ⟨-, -, good, names, -, -, -⟩ := h
  obtain ⟨c, hc, hsub⟩ := Option.bind_eq_some_iff.mp good
  rw [subjectOf, (jwtDecode_some hc).1, Option.bind_some, hsub, Option.bind_some]
  exact names

end

/-! ## Looking -/

section looking

variable {α : Type} {i : Sid} {t : Task} {os : List ApiObs} {Q : List ApiObs → Except Exn α → Prop}

/-- Closing the session is no more than looking. -/
theorem Looks.session {p : FrontTx α} (hp : api.Looks i t Q os p)
    (hQ : ∀ os o r, Q os r → Q (os ++ [o]) r) : api.Looks i t Q os (frontSession p) := by
  refine hp.handle (fun os' r hr => ?_)
  refine Front.Looks.bind (Q := fun os x => x = .ok () ∧ Q os r)
    (.perform (fun inp db o n e he => ⟨(api_run_close he).1, (api_run_close he).2.1, hQ _ _ _ hr⟩))
    (fun os'' _ hclosed => ?_) (fun _ e he => absurd he.1 (by simp))
  cases r with
  | ok a => exact hclosed.2
  | error e => exact hclosed.2

theorem looks_look (l : Look) : api.Looks i t (fun _ _ => True) os (look l) :=
  .perform (fun _ _ _ _ _ he => ⟨(api_run_look he).1, trivial⟩)

/-- A token is checked against one reading of the clock. -/
theorem looks_decode (token : String) :
    api.Looks i t (fun os r => ∃ o ∈ os, o.stmt = .inl .now
      ∧ r = .ok ((jwtDecode token o.inp.now).bind Claims.sub)) os (decodeAccessToken token) := by
  refine Front.Looks.bind (Q := fun os r => ∃ o ∈ os, o.stmt = .inl .now ∧ r = .ok o.inp.now)
    (.perform (fun inp db o n e he => ⟨(api_run_now he).1, _,
      List.mem_append_right _ (List.mem_singleton_self _), rfl, (api_run_now he).2⟩))
    (fun os' now hnow => ?_) (fun _ e he => absurd he (by simp))
  obtain ⟨o, ho, hstmt, hnow⟩ := hnow
  cases hnow
  cases hc : jwtDecode token o.inp.now with
  | none => exact ⟨o, ho, hstmt, by rw [hc]; rfl⟩
  | some c => exact ⟨o, ho, hstmt, by rw [hc]; rfl⟩

/-- **`get_current_user` recognises whom the token names, or has a reason not to.** -/
theorem looks_getCurrentUser (token : String) :
    api.Looks i t (Identified token) [] (getCurrentUser token) := by
  refine (looks_decode token).bind (fun os s hs => ?_) (fun os e he => absurd he (by simp))
  obtain ⟨o, ho, hclock, hs⟩ := hs
  have hs : s = (jwtDecode token o.inp.now).bind Claims.sub := Except.ok.inj hs
  cases s with
  | none => exact .invalid ho hclock (by rw [← hs]; rfl)
  | some s =>
      cases hid : Wire.uuidOfStr s with
      | none =>
          simp only [hid]
          exact .invalid ho hclock (by rw [← hs, Option.bind_some]; exact hid)
      | some id =>
          simp only [hid]
          -- the read of the account is kept with its answer, for both ways it can go
          refine Front.Looks.bind (Q := fun os' r => os ⊆ os' ∧ ∃ o' ∈ os', o'.stmt
            = .inr (.selectUserById id)
              ∧ o'.ok = r.isOk ∧ r = (Look.selectUserById id).run o'.inp o'.db)
            (.perform (fun inp db aux n e he =>
              ⟨(api_run_look he).1, List.subset_append_left _ _, _,
              List.mem_append_right _ (List.mem_singleton_self _), rfl, rfl, (api_run_look he).2⟩))
            (fun os' row hread => ?_) (fun os' e hread => ?_)
          · obtain ⟨hos, o', ho', hbyId, -, hrow⟩ := hread
            rw [Look.run] at hrow
            split at hrow
            · exact absurd hrow (by simp)
            · have hrow : row = o'.db.users.get id := Except.ok.inj hrow
              cases row with
              | none =>
                  exact .unknown (hos ho) hclock (by rw [← hs, Option.bind_some]; exact hid)
                    ho' hbyId hrow.symm
              | some u =>
                  obtain rfl : u.id = id := Table.key_of_get hrow.symm
                  exact .intro (hos ho) hclock hs.symm hid ho' hbyId hrow.symm
          · obtain ⟨hos, o', ho', hbyId, hok, hrow⟩ := hread
            rw [Look.run] at hrow
            split at hrow
            · rename_i f hf
              cases hrow
              exact .failed (hos ho) hclock (by rw [← hs, Option.bind_some]; exact hid)
                ho' hbyId hok hf
            · exact absurd hrow (by simp)

end looking

/-! ## Every task is a front -/

omit [Credentials] [Jwt] [Settings] in
theorem WalletRoute.program_eq (route : WalletRoute) (user : Uuid) :
    (route.request user).program = withSession (route.body user) := by
  cases route <;> rfl

/-- A wallet route finds out who is asking, and then is a session. -/
theorem wallets_program (token : String) (route : WalletRoute) :
    Task.program (.wallets token route) = (getCurrentUser token).handle (fun r => frontSession
      (andThen (fun u => (route.body u.id).behind Answer.reply) r)) := handle_handle _ _ _

omit [Credentials] [Jwt] [Settings] in
/-- It is then the session of the services it names. -/
theorem WalletRoute.program_behind (route : WalletRoute) (user : Uuid) :
    ((route.request user).program.behind Answer.reply : FrontTx Answer)
      = frontSession ((route.body user).behind Answer.reply) := by
  rw [route.program_eq]
  refine behind_handle _ (fun r => ?_)
  show ((query .close >>= fun _ => ofExcept r) : Tx Reply).behind Answer.reply = _
  rw [behind_bind, query, behind_perform, behind_ofExcept]
  rfl

/-- Tasks that neither need a user nor write. -/
def Task.aside : Task → Bool
  | .login _ _ | .readiness | .snapshot => true
  | _ => false

/-- What the API decides by: a wallet route is for whoever is recognised, and nobody else is told
more than why not. -/
def apiGate : Front.Gate Db Outside (Stmt ⊕ Look) Inp Exn Task Answer where
  admits := fun t os =>
    match t with
    | .register _ | .job _ => True
    | .wallets token _ => ∃ u, Recognised token os u
    | .login _ _ | .readMe _ | .readiness | .snapshot => False
  dismisses := fun t os r =>
    match t with
    | .register _ | .job _ => False
    | .wallets token _ => ∃ e, r = .error e ∧ Refused token os e
    | .readMe token => (∃ u, Recognised token os u ∧ r = .ok (.account (.ofUser u)))
        ∨ ∃ e, r = .error e ∧ Refused token os e
    | .login _ _ | .readiness | .snapshot => True

omit [Runtime] [Credentials] [Settings] in
theorem dismisses_mono {t : Task} {os : List ApiObs} {o : ApiObs} {r : Except Exn Answer}
    (h : apiGate.dismisses t os r) : apiGate.dismisses t (os ++ [o]) r := by
  have hos : os ⊆ os ++ [o] := List.subset_append_left _ _
  cases t with
  | register | job => exact h
  | login | readiness | snapshot => trivial
  | wallets token route =>
      obtain ⟨e, hr, href⟩ := h
      exact ⟨e, hr, href.mono hos⟩
  | readMe token =>
      rcases h with ⟨u, hrec, hr⟩ | ⟨e, hr, href⟩
      · exact .inl ⟨u, hrec.mono hos, hr⟩
      · exact .inr ⟨e, hr, href.mono hos⟩

variable {i : Sid}

theorem approach_wallets (token : String) (route : WalletRoute) :
    api.Approach apiGate i (.wallets token route) [] (Task.program (.wallets token route)) := by
  rw [wallets_program]
  refine (looks_getCurrentUser token).enter (fun os r hr => ?_)
  cases r with
  | error e =>
      have hraise : api.Looks i (.wallets token route)
          (apiGate.dismisses (.wallets token route)) os (raise e) :=
        ⟨e, rfl, hr⟩
      exact (Looks.session hraise (fun _ _ _ => dismisses_mono)).approach
  | ok u =>
      have htarget : api.target (.wallets token route) = route.request u.id := by
        show ((subjectOf token).map _).getD _ = _
        rw [Recognised.subject hr]
        rfl
      have hstart : (system.start (api.target (.wallets token route))).behind api.wrap
          = frontSession ((route.body u.id).behind Answer.reply) := by
        rw [htarget]
        exact route.program_behind u.id
      show api.Approach apiGate i _ os (frontSession ((route.body u.id).behind Answer.reply))
      rw [← hstart]
      exact .enter ⟨u, hr⟩

theorem approach_readMe (token : String) :
    api.Approach apiGate i (.readMe token) [] (Task.program (.readMe token)) := by
  refine (Looks.session (Front.Looks.map ?_) (fun _ _ _ => dismisses_mono)).approach
  refine (looks_getCurrentUser token).bind (fun os u hrec => ?_) (fun os e href => ?_)
  · exact .inl ⟨u, hrec, rfl⟩
  · exact .inr ⟨e, rfl, href⟩

theorem looks_login {t : Task} (username password : String) :
    api.Looks i t (fun _ _ => True) [] (Api.login username password) := by
  have hauth : api.Looks i t (fun _ _ => True) []
      ((UserService.authenticate username password).behind id : FrontTx (Option User)) := by
    refine fun inp db o n e he => ⟨(api_run_userByEmail he).1, ?_⟩
    cases e.ans with
    | error x => trivial
    | ok u => cases u with
      | none => trivial
      | some u =>
          show api.Looks i t _ _ (Prog.behind id (andThen _ (.ok (some u))))
          simp only [andThen_ok]
          split <;> trivial
  refine hauth.bind (fun _ u _ => ?_) (fun _ _ _ => trivial)
  cases u with
  | none => trivial
  | some u =>
      refine Front.Looks.bind (Q := fun _ _ => True) ?_ (fun _ _ _ => trivial)
        (fun _ _ _ => trivial)
      exact Front.Looks.bind (Q := fun _ _ => True)
        (.perform (fun inp db o n e he => ⟨(api_run_now he).1, trivial⟩)) (fun _ _ _ => trivial)
        (fun _ _ _ => trivial)

omit [Settings] [Runtime] [Credentials] in
/-- Only the consumer loops. -/
theorem wallets_once (token : String) (route : WalletRoute) :
    (Task.request (.wallets token route)).next = none := by
  show (((subjectOf token).map (fun u => route.request u)).getD .reconcile).next = none
  cases subjectOf token with
  | none => rfl
  | some u => cases route <;> rfl

/-- **The API and the processes beside it are a front of the services.** -/
theorem api_faithful : api.Faithful apiGate where
  approach := by
    intro i t
    -- a task that only looks may end in any way
    have haside : ∀ {α : Type} {f : α → Answer} {p : FrontTx α}, t.aside = true →
        api.Looks i t (fun _ _ => True) [] p
          → api.Approach apiGate i t [] (frontSession (f <$> p)) := by
      intro α f p ht hp
      refine (Looks.session (Front.Looks.map (hp.mono (fun os r _ => ?_)))
        (fun _ _ _ => dismisses_mono)).approach
      cases t with
      | login | readiness | snapshot => trivial
      | _ => exact absurd ht (by simp [Task.aside])
    cases t with
    | login username password => exact haside rfl (looks_login username password)
    | register data => exact .enter trivial
    | readMe token => exact approach_readMe token
    | wallets token route => exact approach_wallets token route
    | readiness =>
        refine haside rfl (Front.Looks.bind (Q := fun _ _ => True)
          ((looks_look .selectOne).handle (fun _ _ _ => trivial)) (fun _ r _ => ?_)
            (fun _ _ _ => trivial))
        cases r with
        | ok a => trivial
        | error e => trivial
    | snapshot => exact haside rfl (looks_look .selectStats)
    | job j => exact .enter trivial
  loops := by
    intro t p hp
    cases t with
    | job j => exact ⟨rfl, trivial⟩
    | register data => exact ⟨rfl, trivial⟩
    | wallets token route =>
        have hp : (Task.request (.wallets token route)).next = some p := hp
        rw [wallets_once] at hp
        exact absurd hp (by simp)
    | login | readMe | readiness | snapshot =>
        have hp : none = some p := hp
        exact absurd hp (by simp)

/-- How a task has ended, if it has. -/
def answer : FrontTx Answer → Option (Except Exn Answer)
  | .ret a => some (.ok a)
  | .raise e => some (.error e)
  | .call _ _ => none

/-- What a session of the platform was asked to do and how it has ended, if it has. -/
def finished (w : ApiWorld) (i : Sid) : Option (Task × Except Exn Answer) :=
  (w.sess i).bind (fun x => (answer x.2).map (fun r => (x.1, r)))

omit [Settings] [Runtime] [Credentials] [Jwt] in
theorem finished_sess {w : ApiWorld} {i : Sid} {t : Task} {r : Except Exn Answer}
    (h : finished w i = some (t, r)) : w.sess i = some (t, ofExcept r) := by
  obtain ⟨⟨t', p⟩, hsess, h⟩ := Option.bind_eq_some_iff.mp h
  obtain ⟨r', hr, he⟩ := Option.map_eq_some_iff.mp h
  cases he
  rw [hsess]
  cases p with
  | ret a => cases hr; rfl
  | raise e => cases hr; rfl
  | call q k => exact absurd hr (by simp [answer])

/-- How a task is answered, beside services in the state `w₀`: with what they answer whoever it is
from, or by the API alone, and then they have not heard of it. -/
inductive Replied (w₀ : LedgerWorld) (i : Sid) (os : List ApiObs) :
    Task → Except Exn Answer → Prop where
  | registered {data : UserCreate} {r₀ : Except Exn Reply}
      (acts : ended w₀ i = some (.register data, r₀)) :
      Replied w₀ i os (.register data) (r₀.map .reply)
  | worked {j : Job} {r₀ : Except Exn Reply} (acts : ended w₀ i = some (j.request, r₀)) :
      Replied w₀ i os (.job j) (r₀.map .reply)
  | served {token : String} {route : WalletRoute} {u : User} {r₀ : Except Exn Reply}
      (recognised : Recognised token os u) (acts : ended w₀ i = some (route.request u.id, r₀)) :
      Replied w₀ i os (.wallets token route) (r₀.map .reply)
  | refused {token : String} {route : WalletRoute} {e : Exn} (reason : Refused token os e)
      (idle : Fresh i w₀.store) : Replied w₀ i os (.wallets token route) (.error e)
  | shown {token : String} {u : User} (recognised : Recognised token os u)
      (idle : Fresh i w₀.store) :
      Replied w₀ i os (.readMe token) (.ok (.account (.ofUser u)))
  | hidden {token : String} {e : Exn} (reason : Refused token os e) (idle : Fresh i w₀.store) :
      Replied w₀ i os (.readMe token) (.error e)
  | aside {t : Task} {r : Except Exn Answer} (looks : t.aside = true) (idle : Fresh i w₀.store) :
      Replied w₀ i os t r

/-- A state of the services that a state of the platform cannot be told from. -/
structure Refines (w : ApiWorld) (w₀ : LedgerWorld) : Prop where
  db : w.store.db = w₀.store.db
  /-- Broker and cache. -/
  outside : w.store.aux = w₀.store.aux
  pending : w.store.pending = w₀.store.pending
  locks : w.store.locks = w₀.store.locks
  /-- Every commit is that of the request its task stands for. -/
  commits : w.store.commits.map (fun c => ⟨c.sid, c.tag.request, c.writes⟩) = w₀.store.commits
  /-- Every answer is the services' own, or has a reason not to be. -/
  answers : ∀ i t r, finished w i = some (t, r) → Replied w₀ i (w.store.script i) t r

theorem api_shadowed {db₀ : Db} {w : ApiWorld} (h : ApiReachable db₀ w) :
    ∃ w₀, ReachableFrom db₀ w₀ ∧ api.Shadows apiGate w w₀ := Front.reachable_shadowed api_faithful h

theorem Shadows.refines {w : ApiWorld} {w₀ : LedgerWorld} (h : api.Shadows apiGate w w₀) :
    Refines w w₀ where
  db := h.store.db
  outside := h.store.aux
  pending := h.store.pending
  locks := h.store.locks
  commits := h.store.commits
  answers := by
    intro i t r hr
    rcases h.ended (finished_sess hr) with ⟨r₀, pre, hbase, rfl, hpre, hadm⟩ | ⟨hidle, hdismissed⟩
    · -- past its gate, the session has ended as the services' own
      have hended : ended w₀ i = some (t.request, r₀) := by
        rw [ended, hbase]
        show (outcome (ofExcept r₀)).map _ = _
        rw [outcome_ofExcept]
        rfl
      cases t with
      | register data => exact .registered hended
      | job j => exact .worked hended
      | wallets token route =>
          obtain ⟨u, hu⟩ := hadm
          have htarget : (Task.wallets token route).request = route.request u.id := by
            rw [Task.request, hu.subject]
            rfl
          exact .served (hu.mono hpre.subset) (htarget ▸ hended)
      | login | readMe | readiness | snapshot => exact hadm.elim
    · cases t with
      | register | job => exact hdismissed.elim
      | wallets token route =>
          obtain ⟨e, rfl, href⟩ := hdismissed
          exact .refused href hidle
      | readMe token =>
          rcases hdismissed with ⟨u, hrec, rfl⟩ | ⟨e, rfl, href⟩
          · exact .shown hrec hidle
          · exact .hidden href hidle
      | login | readiness | snapshot => exact .aside rfl hidle

/-- **Every run of the platform is a run of the services**: with the same database, locks, broker
and cache, every task that gets past its token acting for the token's subject and answered as the
services answer, every other not at all, and answered with the reason. -/
theorem api_refines (db₀ : Db) (w : ApiWorld) (h : ApiReachable db₀ w) :
    ∃ w₀, ReachableFrom db₀ w₀ ∧ Refines w w₀ := by
  obtain ⟨w₀, hr, hs⟩ := api_shadowed h
  exact ⟨w₀, hr, Shadows.refines hs⟩

/-! ## A run

Ann registers, logs in, opens a wallet, is paid 100 and takes 40 out.
-/

omit [Runtime] [Credentials] [Jwt] [Settings]

/-- The digits of the expiry time, a dot, and the subject behind another. -/
def plainEncode (c : Claims) : List Char :=
  (c.exp.map (Nat.toDigits 10)).getD [] ++ '.' :: (c.sub.map (fun s => '.' :: s.toList)).getD []

def plainPayload (cs : List Char) : Option Claims :=
  match cs.dropWhile (fun c => c != '.') with
  | [] => none
  | _ :: rest =>
      let sub := match rest with
        | [] => none
        | _ :: s => some (String.ofList s)
      let exp := match cs.takeWhile (fun c => c != '.') with
        | [] => none
        | ds => some (Nat.ofDigitChars 10 ds 0)
      some ⟨sub, exp⟩

/-- Tokens that can be read by anyone, and signed by anyone. -/
@[reducible] def plainJwt : Jwt :=
  ⟨fun c => String.ofList (plainEncode c), fun t => plainPayload t.toList⟩

@[reducible] def plainSettings : Settings := ⟨30⟩

/-- A dot ends what has none. -/
theorem split_dot {ds rest : List Char} (h : '.' ∉ ds) :
    (ds ++ '.' :: rest).takeWhile (fun c => c != '.') = ds
      ∧ (ds ++ '.' :: rest).dropWhile (fun c => c != '.') = '.' :: rest := by
  have hds : ∀ c ∈ ds, (c != '.') = true := by
    intro c hc
    simp only [bne_iff_ne, ne_eq]
    rintro rfl
    exact h hc
  rw [List.takeWhile_append_of_pos hds, List.dropWhile_append_of_pos hds]
  simp

theorem payload_plain (c : Claims) : @Jwt.payload plainJwt (@Jwt.encode plainJwt c) = some c := by
  obtain ⟨sub, exp⟩ := c
  show plainPayload (String.ofList (plainEncode ⟨sub, exp⟩)).toList = _
  rw [String.toList_ofList, plainEncode, plainPayload]
  have hdot : '.' ∉ (exp.map (Nat.toDigits 10)).getD [] := by
    cases exp with
    | none => simp
    | some n =>
        intro hmem
        exact absurd (Nat.isDigit_of_mem_toDigits (by decide) (by decide) hmem) (by decide)
  obtain ⟨htake, hdrop⟩ := @split_dot _ ((sub.map (fun s => '.' :: s.toList)).getD []) hdot
  simp only [htake, hdrop]
  congr 1
  cases sub with
  | none =>
      cases exp with
      | none => rfl
      | some n =>
          simp only [Option.map_none, Option.getD_none, Option.map_some, Option.getD_some]
          split
          · rename_i hnil
            exact absurd hnil Nat.toDigits_ne_nil
          · rw [Nat.ofDigitChars_ten_toDigits]
  | some s =>
      simp only [Option.map_some, Option.getD_some, String.ofList_toList]
      cases exp with
      | none => rfl
      | some n =>
          simp only [Option.map_some, Option.getD_some]
          split
          · rename_i hnil
            exact absurd hnil Nat.toDigits_ne_nil
          · rw [Nat.ofDigitChars_ten_toDigits]

/-- The platform with readable tokens. -/
abbrev plainApi := @api plainJwt plainSettings plainRuntime plainCredentials

/-- A move of the platform. -/
abbrev ApiAction := Action Task Inp Move

/-- Session `i` executes `n` statements, drawing consecutive ids. -/
def proceed (i : Sid) (n firstId : Nat) : List ApiAction :=
  (List.range n).map (fun k => .exec i { uuid := firstId + k })

/-- The token of the account 12, issued at the epoch. -/
def annsToken : String := @Jwt.encode plainJwt ⟨some (Wire.uuidStr 12), some 1800⟩

/-- Ann registers and logs in. -/
def signIn : List ApiAction :=
  [.spawn (.register ⟨"Ann", "ann@example.com", "password"⟩)] ++ proceed 0 7 10
    ++ [.spawn (.login "ann@example.com" "password")] ++ proceed 1 3 0

/-- Ann's first visit. -/
def visit : List ApiAction :=
  signIn
    ++ [.spawn (.wallets annsToken (.createWallet ⟨"inr", rfl⟩))] ++ proceed 2 8 28
    ++ [.spawn (.wallets annsToken (.deposit 31 (depositOf 100)))] ++ proceed 3 16 50
    ++ [.spawn (.wallets annsToken (.withdraw 31 (withdrawalOf 40) none))] ++ proceed 4 16 80

/-- Run moves of the platform from an empty database. -/
def runApi (acts : List ApiAction) : Option ApiWorld :=
  plainApi.system.runs (World.init (ApiStore.start .empty)) acts

/-- The states of such runs. -/
abbrev PlainReachable (w : ApiWorld) : Prop :=
  @ApiReachable plainJwt plainSettings plainRuntime plainCredentials .empty w

/-- Where a run ends is reachable. -/
theorem exists_runApi {β : Type} (acts : List ApiAction) (f : ApiWorld → β) {v : β}
    (h : (runApi acts).map f = some v) : ∃ w, PlainReachable w ∧ f w = v := by
  obtain ⟨w, hw, hv⟩ := Option.map_eq_some_iff.mp h
  exact ⟨w, Reachable.init.runs hw, hv⟩

theorem visit_refines : ∃ w, (PlainReachable w
    ∧ w.store.db.wallets.rows.map Wallet.availableBalance = [60]
      ∧ (finished w 4).map Prod.fst
        = some (.wallets annsToken (.withdraw 31 (withdrawalOf 40) none))
      ∧ finished w 5 = some (.wallets "." (.getBalance 31), .error credentialsError))
    ∧ ∃ w₀, @ReachableFrom plainRuntime .empty w₀ ∧ @Refines plainJwt w w₀ := by
  obtain ⟨w, hr, hw⟩ := exists_runApi
    (visit ++ [.spawn (.wallets "." (.getBalance 31))] ++ proceed 5 2 0)
    (fun w => (w.store.db.wallets.rows.map Wallet.availableBalance,
      (finished w 4).map Prod.fst, finished w 5))
    (v := ([60], some (.wallets annsToken (.withdraw 31 (withdrawalOf 40) none)),
      some (.wallets "." (.getBalance 31), .error credentialsError))) (by decide +kernel)
  exact ⟨w, ⟨hr, congrArg Prod.fst hw, congrArg (fun v => v.2.1) hw, congrArg (fun v => v.2.2) hw⟩,
    @api_refines plainRuntime plainCredentials plainJwt plainSettings .empty w hr⟩

end WalletLedger
