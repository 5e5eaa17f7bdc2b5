import WalletLedger.Isolation.Logic

/-!
# The notification consumer

`app/events/consumer.py`: a process that reads the topic, hands every event it has
not seen to a handler, and commits the offset. It uses no database. What is outside
of it is the broker and its own memory, so it is a system of its own on the same
sessions: a session is one process, and `self.seen` is lost with it.

The handler is the environment's: each call completes or raises.
-/

namespace WalletLedger

open Isolation Prog

namespace Notifications

/-! ## The topic, the group and the memories -/

/-- A payload, as far as the consumer looks at it. -/
structure Notice where
  /-- `payload.get("transaction_id")`. -/
  transactionId : Option String
  deriving DecidableEq, Repr

/-- The value of a record; `none` is one that `json.loads` does not make a payload of. -/
abbrev Value := Option Notice

/-- What `poll` returns. -/
inductive Polled where
  /-- Nothing within the timeout. -/
  | nothing
  /-- A message whose `error()` is set. -/
  | error (code : Nat)
  /-- A record. -/
  | record (part offset : Nat) (value : Value)
  deriving DecidableEq, Repr

/-- What the environment lets `poll` find. -/
inductive Fetch where
  | nothing
  | error (code : Nat)
  | record (part offset : Nat)
  deriving DecidableEq, Repr

/-- Everything outside the programs. -/
structure Outside where
  /-- The records of each partition. -/
  partitions : Nat → List Value
  /-- The process a partition is assigned to. -/
  owner : Nat → Option Sid
  /-- One past the highest offset that process has been given since. -/
  position : Nat → Nat
  /-- Offset commits on their way to the broker. -/
  requested : List (Nat × Nat)
  /-- The committed offset of the group. -/
  committed : Nat → Nat
  /-- `self.seen` of each process. -/
  seen : Sid → List (Option String)

/-- An empty topic. -/
def Outside.start : Outside :=
  { partitions := fun _ => [], owner := fun _ => none, position := fun _ => 0, requested := [],
    committed := fun _ => 0, seen := fun _ => [] }

/-! ## Calls -/

/-- The calls the consumer makes. -/
inductive Stmt where
  | subscribe
  | poll
  /-- `txn_id in self.seen`. -/
  | isSeen (txnId : Option String)
  /-- `self.handler(payload)`. -/
  | handler (payload : Notice)
  /-- `self.seen.add(txn_id)`. -/
  | add (txnId : Option String)
  | commit (part offset : Nat)
  | close
  deriving DecidableEq, Repr

/-- What a call is answered with. -/
@[reducible] def Stmt.Ans : Stmt → Type
  | .poll => Polled
  | .isSeen _ => Bool
  | _ => Unit

/-- The exceptions a call raises. -/
inductive Exn where
  | jsonDecode
  | handler
  | kafka (code : Nat)
  deriving DecidableEq, Repr

/-- The environment's choices for one call; each reads the fields it needs. -/
structure Inp where
  fetch : Fetch := .nothing
  /-- The handler raises. -/
  raises : Bool := false
  /-- The broker call fails with this code. -/
  kafkaFault : Option Nat := none
  deriving DecidableEq, Repr

/-- A program of the consumer. -/
abbrev Tx (α : Type) := Prog Stmt Stmt.Ans Exn α

/-- One call. -/
def query (q : Stmt) : Tx q.Ans := Prog.perform q

/-- An effect on what is outside. -/
abbrev Effect (β : Type) := Isolation.Effect Empty Empty Outside Exn β

/-- A call that does what it should. -/
def done {β : Type} (o : Outside) (a : β) : Effect β := { ans := .ok a, aux := o }

/-- A call that raises and leaves everything as it is. -/
def raised {β : Type} (o : Outside) (e : Exn) : Effect β := { ans := .error e, aux := o }

/-- A broker call that fails, or leads to `o'`. -/
def brokerCall {β : Type} (inp : Inp) (o o' : Outside) (a : β) : Effect β :=
  match inp.kafkaFault with
  | some c => raised o (.kafka c)
  | none => done o' a

/-- `consumer.poll(1.0)`. A record comes from a partition assigned to the caller: the next one,
or one that is delivered again. -/
def runPoll (inp : Inp) (i : Sid) (o : Outside) : Option (Effect Polled) :=
  match inp.fetch with
  | .nothing => some (brokerCall inp o o .nothing)
  | .error c => some (brokerCall inp o o (.error c))
  | .record p n =>
      if o.owner p = some i ∧ n ≤ o.position p then
        match (o.partitions p)[n]? with
        | some v =>
            some (brokerCall inp o
              { o with position := upd o.position p (max (o.position p) (n + 1)) }
              (.record p n v))
        | none => none
      else none

/-- The process leaves the group. -/
def Outside.leave (o : Outside) (i : Sid) : Outside :=
  { o with owner := fun p => if o.owner p = some i then none else o.owner p }

/-- Execute a call of process `i`. -/
def run (q : Stmt) (inp : Inp) (i : Sid) (o : Outside) : Option (Effect q.Ans) :=
  match q with
  | .subscribe => some (brokerCall inp o o ())
  | .poll => runPoll inp i o
  | .isSeen txnId => some (done o (decide (txnId ∈ o.seen i)))
  | .handler _ => some (if inp.raises then raised o .handler else done o ())
  | .add txnId => some (done { o with seen := upd o.seen i (txnId :: o.seen i) } ())
  -- `commit` is asynchronous: it returns before the broker has answered
  | .commit p n => some (brokerCall inp o { o with requested := o.requested ++ [(p, n + 1)] } ())
  | .close => some (done (o.leave i) ())

/-! ## The consumer -/

/-- Process one event idempotently. `true` if handled, `false` if a duplicate. -/
def handleEvent (payload : Notice) : Tx Bool := do
  let txnId := payload.transactionId
  if ← query (.isSeen txnId) then
    pure false
  else do
    query (.handler payload)
    query (.add txnId)
    pure true

/-- One round of the loop. -/
def round : Tx Unit := do
  let msg : Polled ← query .poll
  match msg with
  | .nothing => pure ()
  | .error _ => pure ()
  | .record _ _ none => raise .jsonDecode
  | .record part offset (some payload) => do
      let _ ← handleEvent payload
      query (.commit part offset)

/-- The round under `finally: self.consumer.close()`, which an exception runs on its way out. -/
def guarded (p : Tx Unit) : Tx Unit :=
  p.handle (fun
    | .ok a => .ret a
    | .error e => do
        query .close
        raise e)

/-- Subscribe, then the first round. -/
def runForever : Tx Unit := do
  query .subscribe
  guarded round

/-! ## Processes -/

/-- What happens outside the process. -/
inductive Move where
  /-- A record is written. -/
  | append (part : Nat) (value : Value)
  /-- A partition is assigned to a process, which resumes at the committed offset. -/
  | assign (part : Nat) (i : Sid)
  /-- A requested offset commit reaches the broker. -/
  | settle (index : Nat)
  /-- A requested offset commit is lost. -/
  | lose (index : Nat)
  deriving DecidableEq, Repr

/-- Carry out a move. -/
def Outside.move (o : Outside) : Move → Option Outside
  | .append p v => some { o with partitions := upd o.partitions p (o.partitions p ++ [v]) }
  | .assign p i =>
      some { o with owner := upd o.owner p (some i), position := upd o.position p (o.committed p) }
  | .settle k =>
      match o.requested[k]? with
      | some (p, n) =>
          some { o with committed := upd o.committed p n, requested := o.requested.eraseIdx k }
      | none => none
  | .lose k => some { o with requested := o.requested.eraseIdx k }

/-- The broker and the memories under the processes. There is no database. -/
def engine : Engine Unit Empty Empty Outside Stmt Inp Move Exn Stmt.Ans where
  apply db _ := db
  footprint _ := []
  same _ _ _ := True
  same_refl _ _ := trivial
  same_trans _ _ := trivial
  same_apply _ := trivial
  run q inp i _ o := run q inp i o
  covers _ w _ := w.elim
  env x o := o.move x
  crash i o := { o with seen := upd o.seen i [] }

/-- Any number of processes `python -m app.events.run_consumer`, started at any time. -/
def system : System Unit Empty Empty Outside Stmt Inp Move Exn Unit Unit Stmt.Ans where
  toEngine := engine
  start _ := runForever
  again _ := some (guarded round)

/-- A call in the history, with what it met. -/
abbrev Call := Obs Unit Outside Stmt Inp Unit

/-- The states that runs on an empty topic lead to. -/
abbrev Reached (w : World Unit Empty Empty Outside Stmt Inp Exn Unit Unit Stmt.Ans) : Prop :=
  Reachable system (Store.init () Outside.start) w

end Notifications

end WalletLedger
