import WalletLedger.Proof.Pipeline

/-!
# Caught up

When the pipeline has nothing left to do, the rollup speaks for the whole ledger. The
chain of `Proof.Pipeline` is walked the other way here, from a transaction to the inbox:

* every transaction has an outbox event (`Announced`), and the event is stamped;
* a stamp stands for an acknowledged message (`Shipped`);
* what is acknowledged is in some partition of the topic (`Landed`);
* a record below the committed offset is in the inbox (`Handled`).

Each link can break, which is why the two conditions on the run are there: a publisher
that commits before it has heard of its messages stamps what may never arrive, and a
consumer that asks for an offset to be committed after its handler has raised skips a
record.
-/

namespace WalletLedger

open Isolation Prog AnalyticsService

/-! ## From the producer to a partition -/

/-- Every acknowledged message is a record of some partition. -/
def Landed (o : Outside) : Prop :=
  ∀ n ∈ o.acked, ∃ h p, o.handed[n]? = some h ∧ .event h.msg.value ∈ o.partitions p

/-- A message and its record stay where they are while the lists grow. -/
theorem Landed.grow {o o' : Outside} (h : Landed o) (hack : o'.acked ⊆ o.acked)
    (hhand : o.handed <+: o'.handed) (hpart : ∀ p, o.partitions p ⊆ o'.partitions p) :
    Landed o' := by
  intro n hn
  obtain ⟨x, p, hx, hp⟩ := h n (hack hn)
  obtain ⟨l, hl⟩ := hhand
  exact ⟨x, p, by rw [← hl]; exact getElem?_of_append l hx, hpart p hp⟩

theorem Landed.env {o o' : Outside} {m : Move} (h : Landed o) (hm : o.move m = some o') :
    Landed o' := by
  -- a record put at the end of a partition leaves the others where they are
  have hput : ∀ (p p' : Nat) (v : Value),
      o.partitions p' ⊆ upd o.partitions p (o.partitions p ++ [v]) p' := by
    intro p p' v
    by_cases hp : p' = p
    · subst hp
      rw [upd_self]
      exact List.subset_append_left _ _
    · rw [upd_ne _ _ hp]
      exact fun _ hv => hv
  cases m with
  | ack n p =>
      obtain ⟨x, hx, rfl⟩ := Outside.ack_cases hm
      intro k hk
      rcases List.mem_append.mp hk with hk | hk
      · obtain ⟨y, p', hy, hp'⟩ := h k hk
        exact ⟨y, p', hy, hput p p' _ hp'⟩
      · rw [List.mem_singleton.mp hk]
        refine ⟨x, p, hx, ?_⟩
        show .event x.msg.value ∈ upd o.partitions p (o.partitions p ++ [.event x.msg.value]) p
        rw [upd_self]
        exact List.mem_append_right _ (.head _)
  | append p v =>
      cases hm
      exact h.grow (fun _ hn => hn) (List.prefix_refl _) (fun p' => hput p p' v)
  | settle k =>
      obtain ⟨p, n, -, rfl⟩ := Outside.settle_cases hm
      exact h
  | assign p i =>
      cases hm
      exact h
  | lose k =>
      cases hm
      exact h
  | expire id =>
      cases hm
      exact h

variable [Runtime]

/-- The partition a move puts a record into. -/
def filled : LedgerAction → Option Nat
  | .env (.ack _ p) => some p
  | .env (.append p _) => some p
  | _ => none

end WalletLedger
