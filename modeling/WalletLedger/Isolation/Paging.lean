import Mathlib.Data.List.Basic
import Mathlib.Data.Nat.Find

/-!
# A growing list, page by page

Elements are appended to a list, and a reader walks through it from the newest to the
oldest, a page at a time, counting the elements it skips from the newest end. What is
appended meanwhile pushes every older element to a later place, never to an earlier
one. So an element that was there from the start cannot slip past the reader: either it
is still on the page that is read, or it is on a page yet to come.
-/

namespace Isolation

variable {α : Type}

/-- Page `k` of a list, from the newest end: `size` elements after `k * size` others. -/
def page (l : List α) (size k : Nat) : List α := (l.reverse.drop (k * size)).take size

theorem length_page (l : List α) (size k : Nat) :
    (page l size k).length = min size (l.length - k * size) := by
  simp [page]

/-- The page an element is on is a matter of its distance from the newest end. -/
theorem mem_page {l : List α} {e : α} {j size k : Nat} (hj : l[j]? = some e)
    (hlow : k * size ≤ l.length - 1 - j) (hhigh : l.length - 1 - j < (k + 1) * size) :
    e ∈ page l size k := by
  obtain ⟨hlt, -⟩ := List.getElem?_eq_some_iff.mp hj
  have hrev : l.reverse[l.length - 1 - j]? = some e := by
    rw [List.getElem?_reverse (by omega), ← hj]
    congr 1
    omega
  rw [Nat.add_mul, Nat.one_mul] at hhigh
  refine List.mem_iff_getElem?.mpr ⟨l.length - 1 - j - k * size, ?_⟩
  unfold page
  rw [List.getElem?_take_of_lt (by omega), List.getElem?_drop, ← hrev]
  congr 1
  omega

/-- **No element is skipped** by a walk that goes on to a page that is not full. -/
theorem exists_page {ls : Nat → List α} {n size : Nat} (hgrow : ∀ k, k < n → ls k <+: ls (k + 1))
    (hshort : (page (ls n) size n).length < size) {e : α} (he : e ∈ ls 0) :
    ∃ k, k ≤ n ∧ e ∈ page (ls k) size k := by
  obtain ⟨j, hj⟩ := List.mem_iff_getElem?.mp he
  have hstays : ∀ k, k ≤ n → (ls k)[j]? = some e := by
    intro k
    induction k with
    | zero => exact fun _ => hj
    | succ k ih =>
        intro hk
        obtain ⟨l, hl⟩ := hgrow k hk
        have hold := ih (Nat.le_of_succ_le hk)
        obtain ⟨hlt, -⟩ := List.getElem?_eq_some_iff.mp hold
        rw [← hl, List.getElem?_append_left hlt]
        exact hold
  -- at the last page, the element is on it or behind the reader
  have hlast : (ls n).length - 1 - j < (n + 1) * size := by
    rw [length_page] at hshort
    rw [Nat.add_mul, Nat.one_mul]
    omega
  classical
  have hex : ∃ k, (ls k).length - 1 - j < (k + 1) * size := ⟨n, hlast⟩
  have hfirst := Nat.find_spec hex
  have hle : Nat.find hex ≤ n := Nat.find_min' hex hlast
  refine ⟨Nat.find hex, hle, mem_page (hstays _ hle) ?_ hfirst⟩
  -- and at the first such page it cannot be behind
  cases hk : Nat.find hex with
  | zero => omega
  | succ k =>
      have hbefore : ¬((ls k).length - 1 - j < (k + 1) * size) := Nat.find_min hex (by omega)
      have hlen := (hgrow k (by omega)).length_le
      omega

/-- Pages of one and the same list follow each other. -/
theorem flatMap_page (l : List α) (size n : Nat) :
    (List.range n).flatMap (page l size) = l.reverse.take (n * size) := by
  induction n with
  | zero => simp
  | succ n ih =>
      rw [List.range_succ, List.flatMap_append, ih, Nat.add_mul, Nat.one_mul, List.take_add]
      simp [page]

/-- There are only so many full pages. -/
theorem full_pages_le {l : List α} {size n : Nat} (hsize : 0 < size)
    (hfull : ∀ k, k < n → (page l size k).length = size) : n ≤ l.length / size := by
  rw [Nat.le_div_iff_mul_le hsize]
  cases n with
  | zero => simp
  | succ n =>
      have hlast := hfull n (Nat.lt_succ_self n)
      rw [length_page] at hlast
      rw [Nat.add_mul, Nat.one_mul]
      omega

end Isolation
