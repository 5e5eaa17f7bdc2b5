import Mathlib.Algebra.Group.Nat.Defs
import Mathlib.Algebra.Ring.Int.Defs
import Mathlib.Data.List.Basic

/-!
# UUIDs as text

`str(uuid.UUID(int=n))` and `uuid.UUID(s)` of the Python library. Printing is one fixed form;
reading drops what the library drops (`urn:`, `uuid:`, braces, hyphens) and hands the rest to
`int(s, 16)`, which takes a sign, a `0x` and single underscores. What is printed is read back, and
nothing that is printed is read as something else.

Of the digits and blanks `int` accepts beyond ASCII none are modelled.
-/

namespace Wire

/-! ## Hexadecimal digits -/

/-- The value of a hexadecimal digit of either case. -/
def hexVal (c : Char) : Option Nat :=
  if '0' ≤ c ∧ c ≤ '9' then some (c.toNat - 48)
  else if 'a' ≤ c ∧ c ≤ 'f' then some (c.toNat - 87)
  else if 'A' ≤ c ∧ c ≤ 'F' then some (c.toNat - 55)
  else none

/-- The number digits stand for, after those of `acc`. -/
def hexFold (acc : Nat) (cs : List Char) : Nat :=
  cs.foldl (fun a c => a * 16 + (hexVal c).getD 0) acc

theorem hexVal_digitChar : ∀ {d : Nat}, d < 16 → hexVal d.digitChar = some d := by decide

/-- The printed digits of a number are digits. -/
theorem mem_toDigits {n : Nat} {c : Char} (h : c ∈ Nat.toDigits 16 n) :
    ∃ d < 16, c = d.digitChar := by
  induction n using Nat.strongRecOn with
  | ind n ih =>
      rw [Nat.toDigits_eq_if (by decide)] at h
      split at h
      · rename_i hlt
        exact ⟨n, hlt, List.mem_singleton.mp h⟩
      · rename_i hge
        rcases List.mem_append.mp h with h | h
        · exact ih (n / 16) (Nat.div_lt_self (by omega) (by decide)) h
        · exact ⟨n % 16, Nat.mod_lt n (by decide), List.mem_singleton.mp h⟩

/-- Reading the digits of a number gives the number. -/
theorem hexFold_toDigits (n : Nat) : hexFold 0 (Nat.toDigits 16 n) = n := by
  induction n using Nat.strongRecOn with
  | ind n ih =>
      rw [Nat.toDigits_eq_if (by decide)]
      split
      · rename_i hlt
        simp [hexFold, hexVal_digitChar hlt]
      · rename_i hge
        have hrest := ih (n / 16) (Nat.div_lt_self (by omega) (by decide))
        rw [hexFold] at hrest
        rw [hexFold, List.foldl_append, hrest]
        simp only [List.foldl_cons, List.foldl_nil, hexVal_digitChar
          (Nat.mod_lt n (by decide : 0 < 16)),
          Option.getD_some]
        omega

theorem hexFold_zeros (k : Nat) (cs : List Char) :
    hexFold 0 (List.replicate k '0' ++ cs) = hexFold 0 cs := by
  induction k with
  | zero => rfl
  | succ k ih => exact ih

/-! ## Printing -/

/-- `'%032x' % n`. -/
def hex (n : Nat) : List Char := (Nat.toDigits 16 n).leftpad 32 '0'

/-- `UUID.__str__`. -/
def uuidChars (n : Nat) : List Char :=
  (hex n).take 8 ++ '-' :: (((hex n).drop 8).take 4 ++ '-' :: (((hex n).drop 12).take 4
    ++ '-' :: (((hex n).drop 16).take 4 ++ '-' :: (hex n).drop 20)))

def uuidStr (n : Nat) : String := String.ofList (uuidChars n)

theorem hex_eq (n : Nat) :
    hex n = List.replicate (32 - (Nat.toDigits 16 n).length) '0' ++ Nat.toDigits 16 n := rfl

/-- Every character is a digit. -/
theorem mem_hex {n : Nat} {c : Char} (h : c ∈ hex n) : ∃ d < 16, c = d.digitChar := by
  rw [hex_eq, List.mem_append] at h
  rcases h with h | h
  · exact ⟨0, by decide, (List.mem_replicate.mp h).2⟩
  · exact mem_toDigits h

theorem hexFold_hex (n : Nat) : hexFold 0 (hex n) = n := by
  rw [hex_eq, hexFold_zeros, hexFold_toDigits]

/-- 32 digits are enough exactly for 128 bits. -/
theorem length_hex {n : Nat} : (hex n).length = 32 ↔ n < 2 ^ 128 := by
  have hle := Nat.length_toDigits_le_iff (b := 16) (n := n) (k := 32) (by decide) (by decide)
  have hpow : (16 : Nat) ^ 32 = 2 ^ 128 := by decide
  rw [hpow] at hle
  rw [hex_eq, List.length_append, List.length_replicate, ← hle]
  omega

/-- A digit is none of the characters that mean something else. -/
theorem digit_ne : ∀ {d : Nat}, d < 16
    → d.digitChar ∉ ['u', '{', '}', '-', '+', '_', 'x', 'X', ' '] := by
  decide

theorem hex_free {n : Nat} {c : Char}
    (hc : c ∈ ['u', '{', '}', '-', '+', '_', 'x', 'X', ' ']) : c ∉ hex n := by
  intro h
  obtain ⟨d, hd, rfl⟩ := mem_hex h
  exact digit_ne hd hc

/-- What is printed is digits and hyphens. -/
theorem mem_uuidChars {n : Nat} {c : Char} (h : c ∈ uuidChars n) : c = '-' ∨ c ∈ hex n := by
  have htake : ∀ {k j : Nat}, c ∈ ((hex n).drop k).take j → c ∈ hex n :=
    fun h => List.mem_of_mem_drop (List.mem_of_mem_take h)
  simp only [uuidChars, List.mem_append, List.mem_cons] at h
  rcases h with h | h | h | h | h | h | h | h | h
  · exact .inr (List.mem_of_mem_take h)
  · exact .inl h
  · exact .inr (htake h)
  · exact .inl h
  · exact .inr (htake h)
  · exact .inl h
  · exact .inr (htake h)
  · exact .inl h
  · exact .inr (List.mem_of_mem_drop h)

theorem filter_uuidChars (n : Nat) : (uuidChars n).filter (fun c => decide (c ≠ '-')) = hex n := by
  have hkeep : ∀ {cs : List Char}, (∀ c ∈ cs, c ∈ hex n)
      → cs.filter (fun c => decide (c ≠ '-')) = cs := by
    intro cs hcs
    refine List.filter_eq_self.mpr (fun c hc => decide_eq_true ?_)
    rintro rfl
    exact hex_free (by decide) (hcs _ hc)
  have htake : ∀ {k j : Nat} {c : Char}, c ∈ ((hex n).drop k).take j → c ∈ hex n :=
    fun h => List.mem_of_mem_drop (List.mem_of_mem_take h)
  have hsplit : ∀ (k : Nat), ((hex n).drop k).take 4 ++ (hex n).drop (k + 4) = (hex n).drop k := by
    intro k
    rw [← List.drop_drop]
    exact List.take_append_drop 4 _
  simp only [uuidChars, List.filter_append, List.filter_cons, ne_eq,
    not_true_eq_false, decide_false,
    Bool.false_eq_true, if_false]
  rw [hkeep (fun c hc => List.mem_of_mem_take hc), hkeep (fun c hc => htake hc),
    hkeep (fun c hc => htake hc), hkeep (fun c hc => htake hc),
    hkeep (fun c hc => List.mem_of_mem_drop hc), hsplit 16, hsplit 12, hsplit 8]
  exact List.take_append_drop 8 _

/-! ## Reading -/

/-- What `int` skips around the digits. -/
def isBlank (c : Char) : Bool := decide (c.toNat ∈ [9, 10, 11, 12, 13, 32])

/-- `s.strip(chars)`. -/
def strip (p : Char → Bool) (cs : List Char) : List Char :=
  ((cs.dropWhile p).reverse.dropWhile p).reverse

/-- `s.replace(pat, '')`, with `skip` characters of a match still to pass over. -/
def eraseFrom (pat : List Char) : Nat → List Char → List Char
  | _, [] => []
  | skip + 1, _ :: cs => eraseFrom pat skip cs
  | 0, c :: cs =>
      if pat.isPrefixOf (c :: cs) then eraseFrom pat (pat.length - 1) cs else c
        :: eraseFrom pat 0 cs

/-- Digits with single underscores between them, after `acc`. -/
def digitsFrom (acc : Nat) : List Char → Option Nat
  | [] => some acc
  | '_' :: c :: cs => (hexVal c).bind (fun d => digitsFrom (acc * 16 + d) cs)
  | c :: cs => (hexVal c).bind (fun d => digitsFrom (acc * 16 + d) cs)

/-- The digits of `int(s, 16)`. -/
def digits : List Char → Option Nat
  | [] => none
  | c :: cs => (hexVal c).bind (fun d => digitsFrom d cs)

/-- A `0x`, and the underscore that may follow it. -/
def dropPrefix : List Char → List Char
  | '0' :: 'x' :: '_' :: cs | '0' :: 'X' :: '_' :: cs => cs
  | '0' :: 'x' :: cs | '0' :: 'X' :: cs => cs
  | cs => cs

/-- `int(s, 16)`. -/
def intBase16 (cs : List Char) : Option Int :=
  match strip isBlank cs with
  | '-' :: cs => (digits (dropPrefix cs)).map (fun n => -(n : Int))
  | '+' :: cs => (digits (dropPrefix cs)).map (fun n => (n : Int))
  | cs => (digits (dropPrefix cs)).map (fun n => (n : Int))

/-- `uuid.UUID(s).int`; `none` where it raises `ValueError`. -/
def uuidOfStr (s : String) : Option Nat :=
  let cs := eraseFrom "uuid:".toList 0 (eraseFrom "urn:".toList 0 s.toList)
  let cs := (strip (fun c => decide (c ∈ ['{', '}'])) cs).filter (fun c => decide (c ≠ '-'))
  if cs.length = 32 then
    match intBase16 cs with
    | some n => if 0 ≤ n ∧ n < 2 ^ 128 then some n.toNat else none
    | none => none
  else none

/-! ## Round trips -/

/-- Nothing to erase. -/
theorem eraseFrom_free {a : Char} {pat cs : List Char} (h : a ∉ cs) :
    eraseFrom (a :: pat) 0 cs = cs := by
  induction cs with
  | nil => rfl
  | cons c cs ih =>
      obtain ⟨hc, hcs⟩ := not_or.mp (List.mem_cons.not.mp h)
      have hpre : (a :: pat).isPrefixOf (c :: cs) = false := by
        simp [List.isPrefixOf, hc]
      rw [eraseFrom, hpre]
      exact congrArg (c :: ·) (ih hcs)

/-- Nothing to strip. -/
theorem strip_free {p : Char → Bool} {cs : List Char} (h : ∀ c ∈ cs, p c = false) :
    strip p cs = cs := by
  have hdrop : ∀ {l : List Char}, (∀ c ∈ l, p c = false) → l.dropWhile p = l := by
    intro l hl
    cases l with
    | nil => rfl
    | cons c l => exact List.dropWhile_cons_of_neg (by simp [hl c (by simp)])
  rw [strip, hdrop h, hdrop (fun c hc => h c (List.mem_reverse.mp hc)), List.reverse_reverse]

/-- Plain digits are read one after another. -/
theorem digitsFrom_plain {acc : Nat} {cs : List Char} (h : ∀ c ∈ cs, ∃ d < 16, c = d.digitChar) :
    digitsFrom acc cs = some (hexFold acc cs) := by
  induction cs generalizing acc with
  | nil => rfl
  | cons c cs ih =>
      obtain ⟨d, hd, rfl⟩ := h c (by simp)
      have hne : d.digitChar ≠ '_' := fun he => digit_ne hd (by rw [he]; decide)
      rw [digitsFrom.eq_3 _ _ _ (fun _ _ he _ => hne he), hexVal_digitChar hd]
      exact (ih (fun c hc => h c (by simp [hc]))).trans (by simp [hexFold, hexVal_digitChar hd])

/-- Plain digits are what `int` reads them as. -/
theorem intBase16_plain {cs : List Char} (h : ∀ c ∈ cs, ∃ d < 16, c = d.digitChar) (hne : cs ≠ []) :
    intBase16 cs = some (hexFold 0 cs : Nat) := by
  have hblank : ∀ {d : Nat}, d < 16 → isBlank d.digitChar = false := by decide
  have hstrip : strip isBlank cs = cs := strip_free (fun c hc => by
    obtain ⟨d, hd, rfl⟩ := h c hc
    exact hblank hd)
  have hfree : ∀ a ∈ ['u', '{', '}', '-', '+', '_', 'x', 'X', ' '], a ∉ cs := by
    intro a ha hmem
    obtain ⟨d, hd, rfl⟩ := h a hmem
    exact digit_ne hd ha
  have hpre : dropPrefix cs = cs := by
    unfold dropPrefix
    split
    · exact absurd (by simp) (hfree 'x' (by decide))
    · exact absurd (by simp) (hfree 'X' (by decide))
    · exact absurd (by simp) (hfree 'x' (by decide))
    · exact absurd (by simp) (hfree 'X' (by decide))
    · rfl
  have hdigits : digits cs = some (hexFold 0 cs) := by
    cases cs with
    | nil => exact absurd rfl hne
    | cons c cs =>
        obtain ⟨d, hd, rfl⟩ := h c (by simp)
        rw [digits, hexVal_digitChar hd]
        exact (digitsFrom_plain (fun c hc => h c (by simp [hc]))).trans
          (by simp [hexFold, hexVal_digitChar hd])
  unfold intBase16
  rw [hstrip]
  split
  · exact absurd (by simp) (hfree '-' (by decide))
  · exact absurd (by simp) (hfree '+' (by decide))
  · rw [hpre, hdigits]
    rfl

/-- **What is printed is read back**, as long as it is a UUID. -/
theorem uuidOfStr_uuidStr (n : Nat) :
    uuidOfStr (uuidStr n) = if n < 2 ^ 128 then some n else none := by
  have hchar : ∀ {c : Char}, c ∈ ['u', '{', '}'] → c ∉ uuidChars n := by
    intro c hc hmem
    have hc' : c ∈ ['u', '{', '}', '-', '+', '_', 'x', 'X', ' '] := by
      simp only [List.mem_cons, List.not_mem_nil, or_false] at hc ⊢
      rcases hc with rfl | rfl | rfl <;> simp
    rcases mem_uuidChars hmem with rfl | hmem
    · exact absurd hc (by decide)
    · exact hex_free hc' hmem
  have herase : eraseFrom "uuid:".toList 0 (eraseFrom "urn:".toList 0 (uuidStr n).toList)
      = uuidChars n := by
    have hu : 'u' ∉ uuidChars n := hchar (by decide)
    have hlist : (uuidStr n).toList = uuidChars n := String.toList_ofList
    rw [hlist, show "urn:".toList = 'u' :: ['r', 'n', ':'] from rfl, eraseFrom_free hu,
      show "uuid:".toList = 'u' :: ['u', 'i', 'd', ':'] from rfl, eraseFrom_free hu]
  have hstrip : strip (fun c => decide (c ∈ ['{', '}'])) (uuidChars n) = uuidChars n :=
    strip_free (fun c hc => decide_eq_false (fun hmem => hchar (by
      simp only [List.mem_cons, List.not_mem_nil, or_false] at hmem ⊢
      exact .inr hmem) hc))
  have hne : hex n ≠ [] := by
    intro h
    have hlen : (hex n).length = 0 := by rw [h]; rfl
    rw [hex_eq, List.length_append] at hlen
    have := Nat.length_toDigits_pos (b := 16) (n := n)
    omega
  unfold uuidOfStr
  simp only [herase, hstrip, filter_uuidChars]
  by_cases hn : n < 2 ^ 128
  · have hint : (0 : Int) ≤ (n : Int) ∧ (n : Int) < 2 ^ 128 := ⟨by omega, by exact_mod_cast hn⟩
    rw [if_pos (length_hex.mpr hn), intBase16_plain (fun c hc => mem_hex hc) hne,
      hexFold_hex, if_pos hn]
    exact (if_pos hint).trans (by rw [Int.toNat_natCast])
  · rw [if_neg (fun h => hn (length_hex.mp h)), if_neg hn]

/-- Nothing printed is read as anything else. -/
theorem eq_of_uuidOfStr {n m : Nat} (h : uuidOfStr (uuidStr n) = some m) : n = m := by
  rw [uuidOfStr_uuidStr] at h
  split at h
  · exact Option.some.inj h
  · exact absurd h (by simp)

end Wire
