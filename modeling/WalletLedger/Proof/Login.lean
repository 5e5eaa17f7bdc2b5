import WalletLedger.App.Auth
import WalletLedger.Proof.Slots
import WalletLedger.Proof.Transparency

/-!
# Registering and logging in

Registration stores the normal form of the address, login looks for the address as it was typed.
So a user can log in with what they registered with if and only if that was a normal form
already, and then for good: accounts are never changed or removed, and no two have one address.
-/

namespace WalletLedger

open Isolation Prog

section login

variable [Runtime] [Credentials]

/-! ## What login answers -/

/-- The token of the account under an email whose password it is, from the committed accounts. -/
def loginResponse (db : Db) (email password : String) : Except Exn Token :=
  match db.userByEmail email with
  | some u =>
      if Credentials.verifyPassword password u.passwordHash = true then .ok ⟨u.id⟩
      else .error Routes.incorrectLogin
  | none => .error Routes.incorrectLogin

/-- The same, where the server may fail. -/
def loginOutcome (inp : Inp) (db : Db) (email password : String) : Except Exn Token :=
  match inp.fault with
  | some f => .error (.db f)
  | none => loginResponse db email password

variable {i : Sid} {t : Request} {inp : Inp} {s : LedgerStore} {email password : String}

omit [Runtime] in
/-- Login reads once and waits for nobody. -/
theorem runAlone_login (hp : s.pending i = []) (t : Request) (email password : String) (inp : Inp) :
    ∃ s', runAlone engine i t inp (loginProgram email password) s
      = some (loginOutcome inp s.db email password, s') := by
  have hview : s.view engine i = s.db := by
    rw [Store.view, hp]
    rfl
  have hrun : engine.run (.selectUserByEmail email) inp i (s.view engine i) s.aux
      = some (reads inp s.aux (s.db.userByEmail email)) := by rw [hview]; rfl
  -- the session is closed behind whatever the route has made of it
  have hclose : ∀ (r : Except Exn Token) (s₁ : LedgerStore),
      runAlone engine i t inp (Routes.login email password) s = some (r, s₁) →
      ∃ s', runAlone engine i t inp (loginProgram email password) s = some (r, s') := by
    intro r s₁ hr
    obtain ⟨s₂, hx⟩ := exec_lockFree (t := t)
      (show engine.run .close inp i (s₁.view engine i) s₁.aux
      = some { ctl := .abort, ans := .ok (), aux := s₁.aux } from rfl) rfl
    refine ⟨s₂, (runAlone_handle hr).trans ((runAlone_bind (runAlone_perform.trans hx)).trans ?_)⟩
    cases r with
    | ok a => rfl
    | error e => rfl
  unfold loginOutcome
  cases hf : inp.fault with
  | some f =>
      have heff : reads inp s.aux (s.db.userByEmail email) = failed s.aux f [] := by
        rw [reads, hf]
      rw [heff] at hrun
      obtain ⟨s₁, hx⟩ := exec_lockFree (t := t) hrun rfl
      exact hclose _ s₁ (runAlone_bind_error (runAlone_bind_error (runAlone_perform.trans hx)))
  | none =>
      have heff : reads inp s.aux (s.db.userByEmail email)
          = { ans := .ok (s.db.userByEmail email), aux := s.aux } := by
        rw [reads, hf]
      rw [heff] at hrun
      obtain ⟨s₁, hx⟩ := exec_lockFree (t := t) hrun rfl
      refine hclose _ s₁ ?_
      have hlook : runAlone engine i t inp (UserRepository.getByEmail email) s
          = some (.ok (s.db.userByEmail email), s₁) := runAlone_perform.trans hx
      unfold loginResponse
      cases hrow : s.db.userByEmail email with
      | none =>
          rw [hrow] at hlook
          have hauth : runAlone engine i t inp (UserService.authenticate email password) s
              = some (.ok none, s₁) := runAlone_bind hlook
          exact runAlone_bind hauth
      | some u =>
          rw [hrow] at hlook
          by_cases hv : Credentials.verifyPassword password u.passwordHash = true
          · have hauth : runAlone engine i t inp (UserService.authenticate email password) s
                = some (.ok (some u), s₁) := (runAlone_bind hlook).trans (by simp only [hv]; rfl)
            simp only [hv]
            exact runAlone_bind hauth
          · have hauth : runAlone engine i t inp (UserService.authenticate email password) s
                = some (.ok none, s₁) := (runAlone_bind hlook).trans (by simp only [hv]; rfl)
            simp only [hv]
            exact runAlone_bind hauth

end login

/-! ## What registration has stored -/

section register

variable [Runtime] {i : Sid} {t : Request} {os : List LedgerObs} {ws' : List Write}
    {data : UserCreate}
  {u : User}

omit [Runtime] in
/-- A repository that returns has buffered a row under the id it returns. -/
theorem createUser_ok {name email hash : String} (h : Trail engine i t
      (UserRepository.create name email hash) [] os (ofExcept (.ok u)) ws') :
    ws' = [.insertUser ⟨u.id, name, email, hash⟩] := by
  obtain ⟨x, os₁, os₂, ws₁, rfl, h₁, h₂⟩ := h.bind_ok
  have hq : ∀ inp i db o, run (.insertUser name email hash) inp i db o
      = some (writes inp o (checkUser ⟨inp.uuid, name, email, hash⟩) [.user inp.uuid, .email email]
        (if (db.users.get inp.uuid).isSome || (db.userByEmail email).isSome then some .integrity
          else none)
        (.insertUser ⟨inp.uuid, name, email, hash⟩) ⟨inp.uuid, name, email, hash⟩ o) :=
    fun _ _ _ _ => rfl
  obtain ⟨o, -, -, hend⟩ := writes_ended hq h₁
  rcases hend with ⟨-, -, -, hr, rfl⟩ | ⟨-, ⟨e, he⟩, -⟩
  · cases hr
    obtain ⟨o', -, -, ⟨-, a, ha, hr, rfl⟩ | ⟨-, ⟨e, he⟩, -⟩⟩ :=
      refresh_ended (f := fun db => db.users.get o.inp.uuid) (fun _ _ _ _ => rfl) h₂
    · cases hr
      have hid : u.id = o.inp.uuid := Table.key_of_get ha
      rw [hid]
      rfl
    · exact absurd he (by simp)
  · exact absurd he (by simp)

/-- A registration that returns has committed its row and read it back. -/
theorem register_ok (h : Trail engine i t (UserService.register data) [] os
    (ofExcept (.ok u)) ws') :
    ∃ (salt : Nat) (os₁ : List LedgerObs) (d o : LedgerObs), os = os₁ ++ [d, o] ∧ d.stmt = .commit
      ∧ d.inp.fault = none ∧ o.db.users.get u.id = some u
      ∧ engine.buffered [] os₁
        = [.insertUser ⟨u.id, data.name, data.email, Runtime.hashPassword data.password salt⟩] := by
  obtain ⟨existing, os₁, os₂, ws₁, rfl, h₁, h₂⟩ := h.bind_ok
  have hfirst : ws₁ = [] := by
    obtain ⟨o, -, -, ⟨f, -, hr, -⟩ | ⟨-, -, hws⟩⟩ :=
      read_ended (a := fun db => db.userByEmail data.email)
      (fun _ _ _ _ => rfl) h₁
    · exact absurd hr (by simp)
    · exact hws
  subst hfirst
  obtain ⟨-, h₃⟩ := raiseIf_ok h₂
  obtain ⟨salt, os₃, os₄, ws₂, rfl, h₄, h₅⟩ := h₃.bind_ok
  have hsecond : ws₂ = [] := by
    obtain ⟨inp, db, aux, n, eff, -, hrun, -, rfl⟩ := h₄.perform_ended
    cases hrun
    rfl
  subst hsecond
  obtain ⟨x, os₅, os₆, ws₃, rfl, h₆, h₇⟩ := h₅.bind_ok
  have hbuf := createUser_ok h₆
  rw [attempt_bind] at h₇
  obtain ⟨r, os₇, os₈, ws₄, rfl, h₈, h₉⟩ := h₇.handle_ended
  obtain ⟨d, rfl, hcommit, rfl, ⟨f, -, rfl⟩ | ⟨hfault, rfl⟩⟩ := sealing_ended h₈
  · -- a commit that fails raises
    cases f with
    | integrity =>
        obtain ⟨_, _, _, _, -, -, h₁₀⟩ := h₉.bind_ok
        exact (h₁₀.raise_ok).elim
    | data | operational | stale => exact (h₉.raise_ok).elim
  · obtain ⟨o, rfl, -, ⟨-, a, ha, hr, -⟩ | ⟨-, ⟨e, he⟩, -⟩⟩ :=
      refresh_ended (f := fun db => db.users.get x.id) (fun _ _ _ _ => rfl) h₉
    · cases hr
      have hid : u.id = x.id := Table.key_of_get ha
      rw [← hid] at ha hbuf
      refine ⟨salt, os₁ ++ (os₃ ++ os₅), d, o, by simp, hcommit, hfault, ha, ?_⟩
      rw [Engine.buffered_append, Engine.buffered_append, h₁.buffered, h₄.buffered,
        h₆.buffered, hbuf]
    · exact absurd he (by simp)

/-- **A registration that has returned has left the account it returns**, with the address and
password of its body. -/
theorem registered {db₀ : Db} {w : LedgerWorld} (h : ReachableFrom db₀ w)
    (hs : ended w i = some (.register data, .ok (.user u))) :
    w.store.db.users.get u.id = some u ∧ u.email = data.email
      ∧ ∃ salt, u.passwordHash = Runtime.hashPassword data.password salt := by
  obtain ⟨ws, htrail⟩ := ended_trail h hs rfl
  obtain ⟨os, c, ws₁, hos, -, hinner⟩ := withSession_ended htrail
  obtain ⟨r', hservice, hr⟩ := hinner.map_ended
  cases r' with
  | error e => exact absurd hr (by simp [Except.map])
  | ok u' =>
      cases hr
      obtain ⟨salt, os₁, d, o, rfl, hcommit, hfault, hrow, hbuf⟩ := register_ok hservice
      have hsplit : w.store.script i = os₁ ++ d :: [o, c] := by simp [hos]
      have hmem : o ∈ w.store.script i := by rw [hsplit]; simp
      have hdmem : d ∈ w.store.script i := by rw [hsplit]; simp
      obtain ⟨p, hsess⟩ := ended_sess hs
      have htag := (h.signed.tags i _ p hsess).2 d (mem_script.mp hdmem).1 (mem_script.mp hdmem).2
      obtain ⟨hrec, hlate⟩ := commit_sealed h hsplit hcommit hfault (by rw [hbuf]; simp)
      rw [hbuf, htag] at hrec
      -- the id was new, so this row is the one under it from then on
      obtain ⟨u', -, -, hid, -, hws⟩ := (reachable_settled h).legal hrec
      obtain rfl : (⟨u.id, data.name, data.email, Runtime.hashPassword data.password salt⟩ :
        User) = u' := by
        simpa using hws
      have hstored : (w.store.past engine db₀ (d.clock + 1)).users.get u.id
          = some ⟨u.id, data.name, data.email, Runtime.hashPassword data.password salt⟩ := by
        rw [past_succ hrec]
        exact Table.get_insert_self hid
      obtain ⟨hclock, hseen⟩ := h.past.2 o (mem_script.mp hmem).1
      rw [hseen] at hrow
      have heq := hrow.symm.trans ((past_grows (hlate o (by simp))).users _ _ hstored)
      refine ⟨?_, congrArg User.email (Option.some.inj heq),
        salt, congrArg User.passwordHash (Option.some.inj heq)⟩
      rw [h.past.1]
      exact (past_grows hclock).users _ _ hrow

/-- No two accounts have one address, so the one with it is found. -/
theorem reachable_found {w : LedgerWorld} (h : ReachableFrom .empty w) {u : User}
    (hu : w.store.db.users.get u.id = some u) : w.store.db.userByEmail u.email = some u := by
  have hone : (Slot.account u.email).holders w.store.db ≤ 1 :=
    (reachable_settled h).history.induct (P := fun d => ∀ k : Slot, k.holders d ≤ 1) holders_empty
      (fun _ _ _ hl hone k => hl.holders (hone k)) _
  have hmem : u ∈ w.store.db.users.rows.filter (fun v => decide (v.email = u.email)) :=
    List.mem_filter.mpr ⟨Table.mem_of_get hu, by simp⟩
  have hlen : (w.store.db.users.rows.filter
    (fun v => decide (v.email = u.email))).length ≤ 1 := hone
  show List.find? _ _ = _
  rw [← List.head?_filter]
  obtain ⟨v, hv⟩ := List.length_eq_one_iff.mp (Nat.le_antisymm hlen (List.length_pos_of_mem hmem))
  rw [hv] at hmem ⊢
  rw [List.mem_singleton.mp hmem]
  rfl

end register

/-! ## Logging in with what was registered -/

section account

variable [Runtime] [Credentials]

/-- From a state on, an address and its password log a user in, and no password logs in anybody else
under that address. -/
def LogsIn (w : LedgerWorld) (email password : String) (u : User) : Prop :=
  ∀ w', Later system w w' → ∀ (t : Request) (inp : Inp),
    (inp.fault = none → ∃ s', runAlone engine w'.next t inp (loginProgram email password) w'.store
        = some (.ok ⟨u.id⟩, s'))
      ∧ ∀ password' token s', runAlone engine w'.next t inp (loginProgram email password') w'.store
          = some (.ok token, s') → token.subject = u.id

/-- **Who has registered can log in with the same address and password for good, if and only if the
address was in normal form.** -/
theorem registered_logsIn (hverify : ∀ password salt,
      Credentials.verifyPassword password (Runtime.hashPassword password salt) = true)
    (w : LedgerWorld) (h : ReachableFrom .empty w) (i : Sid) (name email password : String)
    (data : UserCreate) (hdata : UserCreate.validate name email password = some data) (u : User)
    (hs : ended w i = some (.register data, .ok (.user u))) :
    LogsIn w email password u ↔ Credentials.normalizeEmail email = some email := by
  obtain ⟨hrow, haddress, salt, hhash⟩ := registered h hs
  obtain ⟨hnormal, hpassword⟩ : Credentials.normalizeEmail email = some data.email
      ∧ data.password = password := by
    unfold UserCreate.validate at hdata
    split at hdata
    · obtain ⟨e, he, rfl⟩ := Option.map_eq_some_iff.mp hdata
      exact ⟨he, rfl⟩
    · exact absurd hdata (by simp)
  have hfree : ∀ {w' : LedgerWorld}, ReachableFrom .empty w' → w'.store.pending w'.next = [] :=
    fun h' => h'.trail.1 _ (Nat.le_refl _)
  constructor
  · intro hlogin
    -- the account found under the address is the one registered
    obtain ⟨s', hx⟩ := (hlogin w .refl .reconcile {}).1 rfl
    obtain ⟨s₁, hx'⟩ := runAlone_login (hfree h) .reconcile email password {}
    have hans : loginResponse w.store.db email password = .ok ⟨u.id⟩ :=
      congrArg Prod.fst (Option.some.inj (hx'.symm.trans hx))
    unfold loginResponse at hans
    cases hv : w.store.db.userByEmail email with
    | none => rw [hv] at hans; exact absurd hans (by simp)
    | some v =>
        simp only [hv] at hans
        split at hans
        · have hid : v.id = u.id := congrArg Token.subject (Except.ok.inj hans)
          have hmem : v ∈ w.store.db.users.rows := List.mem_of_find?_eq_some hv
          have hget := Table.get_of_mem hmem
          rw [hid, hrow] at hget
          cases hget
          have hemail : u.email = email := by simpa using List.find?_some hv
          rw [hnormal, ← haddress, hemail]
        · exact absurd hans (by simp)
  · intro hform w' hl t inp
    have hr := h.later hl
    -- the account is still there, under this address
    have hemail : u.email = email := by
      rw [haddress]
      exact Option.some.inj (hnormal.symm.trans hform)
    have hrow' : w'.store.db.users.get u.id = some u := by
      obtain ⟨hclock, hseen⟩ := hl.past h
      have hev : Evolves w.store.db w'.store.db := by
        rw [hseen, hr.past.1]
        exact ⟨_, (reachable_settled hr).chain hclock⟩
      exact hev.grows.users _ _ hrow
    have hfound := reachable_found hr hrow'
    rw [hemail] at hfound
    refine ⟨fun hf => ?_, fun password' token s' hx => ?_⟩
    · obtain ⟨s', hx⟩ := runAlone_login (hfree hr) t email password inp
      refine ⟨s', hx.trans ?_⟩
      simp only [loginOutcome, hf, loginResponse, hfound, hhash, hpassword, hverify]
      rfl
    · obtain ⟨s₁, hx'⟩ := runAlone_login (hfree hr) t email password' inp
      have hans := congrArg Prod.fst (Option.some.inj (hx'.symm.trans hx))
      unfold loginOutcome at hans
      cases hf : inp.fault with
      | some f => simp only [hf] at hans; exact absurd hans (by simp)
      | none =>
          simp only [hf, loginResponse, hfound] at hans
          split at hans
          · exact (congrArg Token.subject (Except.ok.inj hans)).symm
          · exact absurd hans (by simp)

end account

/-! ## Runs -/

/-- Addresses whose domain is put into lower case, and the hasher of the plain runtime. -/
@[reducible] def plainCredentials : Credentials :=
  ⟨fun email => match email.toList.dropWhile (fun c => c != '@') with
      | [] => none
      | domain =>
          some (String.ofList (email.toList.takeWhile (fun c => c != '@')
            ++ domain.map Char.toLower)),
    fun password hash => decide (hash = "$argon2id$" ++ password)⟩

theorem verify_plain (password : String) (salt : Nat) :
    @Credentials.verifyPassword plainCredentials password
    (@Runtime.hashPassword plainRuntime password salt) = true := decide_eq_true rfl

/-- Ann registers. -/
def signUp (email : String) : List LedgerAction :=
  [.spawn (.register ⟨"Ann", email, "password"⟩)] ++ advance 0 7 10

theorem signUp_logsIn : ∃ w u, (@ReachableFrom plainRuntime .empty w
    ∧ @UserCreate.validate plainCredentials "Ann" "ann@example.com" "password"
      = some ⟨"Ann", "ann@example.com", "password"⟩
    ∧ ended w 0 = some (.register ⟨"Ann", "ann@example.com", "password"⟩, .ok (.user u)))
    ∧ (@LogsIn plainRuntime plainCredentials w "ann@example.com" "password" u
      ↔ @Credentials.normalizeEmail plainCredentials "ann@example.com"
        = some "ann@example.com") := by
  have hdata : @UserCreate.validate plainCredentials "Ann" "ann@example.com" "password"
      = some ⟨"Ann", "ann@example.com", "password"⟩ := by decide +kernel
  obtain ⟨w, hr, hs⟩ := exists_runPlain .empty (signUp "ann@example.com") (fun w => ended w 0)
    (v := some (.register ⟨"Ann", "ann@example.com", "password"⟩,
      .ok (.user ⟨12, "Ann", "ann@example.com", "$argon2id$password"⟩))) (by decide +kernel)
  exact ⟨w, _, ⟨hr, hdata, hs⟩,
    @registered_logsIn plainRuntime plainCredentials verify_plain w hr 0 _ _ _ _ hdata _ hs⟩

/-- She has typed her domain in capitals, and does so again. -/
theorem capitals_lockedOut : ∃ w u, @ReachableFrom plainRuntime .empty w
    ∧ @UserCreate.validate plainCredentials "Ann" "Ann@EXAMPLE.com" "password"
      = some ⟨"Ann", "Ann@example.com", "password"⟩
    ∧ ended w 0 = some (.register ⟨"Ann", "Ann@example.com", "password"⟩, .ok (.user u))
    ∧ (∃ s', runAlone engine w.next .reconcile {}
      (@loginProgram plainCredentials "Ann@EXAMPLE.com" "password")
        w.store = some (.error Routes.incorrectLogin, s'))
    ∧ ¬@LogsIn plainRuntime plainCredentials w "Ann@EXAMPLE.com" "password" u := by
  have hdata : @UserCreate.validate plainCredentials "Ann" "Ann@EXAMPLE.com" "password"
      = some ⟨"Ann", "Ann@example.com", "password"⟩ := by decide +kernel
  obtain ⟨w, hr, hw⟩ := exists_runPlain .empty (signUp "Ann@example.com") (fun w =>
      (ended w 0, (runAlone engine w.next .reconcile {}
        (@loginProgram plainCredentials "Ann@EXAMPLE.com" "password") w.store).map Prod.fst))
    (v := (some (.register ⟨"Ann", "Ann@example.com", "password"⟩,
      .ok (.user ⟨12, "Ann", "Ann@example.com", "$argon2id$password"⟩)),
      some (.error Routes.incorrectLogin))) (by decide +kernel)
  obtain ⟨⟨r, s'⟩, hx, rfl⟩ := Option.map_eq_some_iff.mp (congrArg Prod.snd hw)
  refine ⟨w, _, hr, hdata, congrArg Prod.fst hw, ⟨s', hx⟩, fun hlogin => ?_⟩
  obtain ⟨s₁, hx'⟩ := (hlogin w .refl .reconcile {}).1 rfl
  have hans : (.error Routes.incorrectLogin : Except Exn Token) = .ok _ :=
    congrArg Prod.fst (Option.some.inj (hx.symm.trans hx'))
  exact absurd hans (by simp)

end WalletLedger
