import Mathlib.Data.List.Basic
import Mathlib.Data.List.Nodup
import WalletLedger.Wire.Uuid

/-!
# JSON text

`json.dumps` and `json.loads` of the Python library with their default arguments: keys are
strings, the separators are `", "` and `": "`, and whatever is not printable ASCII is escaped.
Reading is the library's scanner, blanks, escapes and all, and a key that comes twice is the
later of the two.

A float is the literal it is written as. A lone surrogate is no `Char`, so a text that escapes
one is not read here; nor are the limits on digits and nesting.
-/

namespace Wire

/-- A JSON value. -/
inductive Json where
  | null
  | bool (b : Bool)
  | int (n : Int)
  | float (literal : String)
  | str (s : String)
  | arr (items : List Json)
  | obj (members : List (String × Json))

/-- `payload[key]` of an object. -/
def Json.get? : Json → String → Option Json
  | .obj members, key => members.lookup key
  | _, _ => none

/-! ## Writing -/

/-- `'{0:04x}'.format(n)`, for four digits. -/
def hex4 (n : Nat) : List Char :=
  [(n / 4096 % 16).digitChar, (n / 256 % 16).digitChar, (n / 16 % 16).digitChar, (n % 16).digitChar]

/-- A character as `ensure_ascii` writes it; beyond the basic plane as a surrogate pair. -/
def escape (c : Char) : List Char :=
  if c = '"' then ['\\', '"']
  else if c = '\\' then ['\\', '\\']
  else if c = '\n' then ['\\', 'n']
  else if c = '\r' then ['\\', 'r']
  else if c = '\t' then ['\\', 't']
  else if c.toNat = 8 then ['\\', 'b']
  else if c.toNat = 12 then ['\\', 'f']
  else if 32 ≤ c.toNat ∧ c.toNat ≤ 126 then [c]
  else if c.toNat < 0x10000 then '\\' :: 'u' :: hex4 c.toNat
  else '\\' :: 'u' :: (hex4 (0xD800 + (c.toNat - 0x10000) / 1024)
    ++ '\\' :: 'u' :: hex4 (0xDC00 + (c.toNat - 0x10000) % 1024))

/-- A string in quotes. -/
def dumpsStr (s : String) : List Char := '"' :: (s.toList.flatMap escape ++ ['"'])

/-- `int.__repr__`. -/
def intText (n : Int) : List Char :=
  if n < 0 then '-' :: Nat.toDigits 10 n.natAbs else Nat.toDigits 10 n.natAbs

mutual

/-- `json.dumps`. -/
def dumps : Json → List Char
  | .null => ['n', 'u', 'l', 'l']
  | .bool true => ['t', 'r', 'u', 'e']
  | .bool false => ['f', 'a', 'l', 's', 'e']
  | .int n => intText n
  | .float literal => literal.toList
  | .str s => dumpsStr s
  | .arr [] => ['[', ']']
  | .arr (v :: vs) => '[' :: (dumps v ++ dumpsItems vs)
  | .obj [] => ['{', '}']
  | .obj ((k, v) :: ms) => '{' :: (dumpsStr k ++ ':' :: ' ' :: (dumps v ++ dumpsMembers ms))

/-- What comes after an item of an array. -/
def dumpsItems : List Json → List Char
  | [] => [']']
  | v :: vs => ',' :: ' ' :: (dumps v ++ dumpsItems vs)

/-- What comes after a member of an object. -/
def dumpsMembers : List (String × Json) → List Char
  | [] => ['}']
  | (k, v) :: ms => ',' :: ' ' :: (dumpsStr k ++ ':' :: ' ' :: (dumps v ++ dumpsMembers ms))

end

/-! ## Reading -/

/-- The blanks of JSON. -/
def isSpace (c : Char) : Bool := decide (c ∈ [' ', '\t', '\n', '\r'])

def skipSpace (cs : List Char) : List Char := cs.dropWhile isSpace

/-- Four hexadecimal digits. -/
def readHex4 (a b c d : Char) : Option Nat :=
  (hexVal a).bind fun a => (hexVal b).bind fun b => (hexVal c).bind fun c => (hexVal d).map fun d =>
    a * 4096 + b * 256 + c * 16 + d

/-- The table of one-letter escapes. -/
def backslash : Char → Option Char
  | '"' => some '"'
  | '\\' => some '\\'
  | '/' => some '/'
  | 'b' => some (Char.ofNat 8)
  | 'f' => some (Char.ofNat 12)
  | 'n' => some '\n'
  | 'r' => some '\r'
  | 't' => some '\t'
  | _ => none

/-- The code point of a `\u` escape with this value, with a second escape if it takes one. -/
def scanUnicode (hi : Nat) (cs : List Char) : Option (Char × List Char) :=
  if hi < 0xD800 ∨ 0xDFFF < hi then some (Char.ofNat hi, cs)
  else if hi < 0xDC00 then
    match cs with
    | '\\' :: 'u' :: a :: b :: c :: d :: cs =>
        (readHex4 a b c d).bind fun lo =>
          if 0xDC00 ≤ lo ∧ lo ≤ 0xDFFF then
            some (Char.ofNat (0x10000 + ((hi - 0xD800) * 1024 + (lo - 0xDC00))), cs)
          else none
    | _ => none
  else none

/-- One character of a string. -/
def scanChar : List Char → Option (Char × List Char)
  | '\\' :: 'u' :: a :: b :: c :: d :: cs => (readHex4 a b c d).bind fun hi => scanUnicode hi cs
  | '\\' :: c :: cs => (backslash c).map fun c => (c, cs)
  | c :: cs => if c = '\\' ∨ c = '"' ∨ c.toNat < 32 then none else some (c, cs)
  | [] => none

/-- The rest of a string whose opening quote has been read; every round reads a character. -/
def scanString : Nat → List Char → Option (List Char × List Char)
  | 0, _ => none
  | n + 1, cs =>
      if cs.head? = some '"' then some ([], cs.tail)
      else (scanChar cs).bind fun x => (scanString n x.2).map fun y => (x.1 :: y.1, y.2)

/-- `scanstring`. -/
def scanStr (cs : List Char) : Option (String × List Char) :=
  (scanString cs.length cs).map fun x => (String.ofList x.1, x.2)

/-! Numbers: `(-?(?:0|[1-9]\d*))(\.\d+)?([eE][-+]?\d+)?`. -/

def scanUnsigned : List Char → Option (List Char × List Char)
  | [] => none
  | c :: cs =>
      if c = '0' then some (['0'], cs)
      else if c.isDigit then some (c :: cs.takeWhile Char.isDigit, cs.dropWhile Char.isDigit)
      else none

def scanInt (cs : List Char) : Option (List Char × List Char) :=
  if cs.head? = some '-' then (scanUnsigned cs.tail).map fun x => ('-' :: x.1, x.2)
    else scanUnsigned cs

def scanFrac : List Char → List Char × List Char
  | c :: d :: cs =>
      if c = '.' ∧ d.isDigit then (c :: d :: cs.takeWhile Char.isDigit, cs.dropWhile Char.isDigit)
      else ([], c :: d :: cs)
  | cs => ([], cs)

/-- The sign of an exponent. -/
def scanSign : List Char → List Char × List Char
  | c :: cs => if c = '+' ∨ c = '-' then ([c], cs) else ([], c :: cs)
  | [] => ([], [])

def scanExp : List Char → List Char × List Char
  | e :: cs =>
      if (e = 'e' ∨ e = 'E') ∧ (scanSign cs).2.takeWhile Char.isDigit ≠ [] then
        (e :: ((scanSign cs).1 ++ (scanSign cs).2.takeWhile Char.isDigit),
          (scanSign cs).2.dropWhile Char.isDigit)
      else ([], e :: cs)
  | [] => ([], [])

/-- `int(text)`. -/
def intValue (cs : List Char) : Int :=
  if cs.head? = some '-' then -(Nat.ofDigitChars 10 cs.tail 0 : Int) else Nat.ofDigitChars 10 cs 0

/-- `_match_number`: an `int` unless there is a fraction or an exponent. -/
def scanNumber (cs : List Char) : Option (Json × List Char) :=
  (scanInt cs).map fun x =>
    let frac := scanFrac x.2
    let exp := scanExp frac.2
    if frac.1 = [] ∧ exp.1 = [] then (.int (intValue x.1), exp.2)
    else (.float (String.ofList (x.1 ++ (frac.1 ++ exp.1))), exp.2)

/-- Constants and numbers. -/
def scanAtom : List Char → Option (Json × List Char)
  | 'n' :: 'u' :: 'l' :: 'l' :: cs => some (.null, cs)
  | 't' :: 'r' :: 'u' :: 'e' :: cs => some (.bool true, cs)
  | 'f' :: 'a' :: 'l' :: 's' :: 'e' :: cs => some (.bool false, cs)
  | 'N' :: 'a' :: 'N' :: cs => some (.float "NaN", cs)
  | 'I' :: 'n' :: 'f' :: 'i' :: 'n' :: 'i' :: 't' :: 'y' :: cs => some (.float "Infinity", cs)
  | '-' :: 'I' :: 'n' :: 'f' :: 'i' :: 'n' :: 'i' :: 't' :: 'y' :: cs =>
      some (.float "-Infinity", cs)
  | cs => scanNumber cs

/-- A key and its colon, with the blanks around it. -/
def scanKey : List Char → Option (String × List Char)
  | '"' :: cs =>
      (scanStr cs).bind fun x =>
        if (skipSpace x.2).head? = some ':' then some
          (x.1, skipSpace (skipSpace x.2).tail) else none
  | _ => none

/-- `d[key] = v`: a key that is there keeps its place. -/
def assign {α : Type} (ms : List (String × α)) (m : String × α) : List (String × α) :=
  if m.1 ∈ ms.map Prod.fst then ms.map (fun x => if x.1 = m.1 then m else x) else ms ++ [m]

/-- `dict(pairs)`. -/
def dict {α : Type} (pairs : List (String × α)) : List (String × α) := pairs.foldl assign []

mutual

/-- `scan_once`; every round reads a character. -/
def scanOnce : Nat → List Char → Option (Json × List Char)
  | 0, _ => none
  | n + 1, cs =>
      match cs with
      | '"' :: cs => (scanStr cs).map fun x => (.str x.1, x.2)
      | '[' :: cs =>
          if (skipSpace cs).head? = some ']' then some (.arr [], (skipSpace cs).tail)
          else
            (scanOnce n (skipSpace cs)).bind fun x =>
              (scanItems n (skipSpace x.2)).map fun y => (.arr (x.1 :: y.1), y.2)
      | '{' :: cs =>
          if (skipSpace cs).head? = some '}' then some (.obj [], (skipSpace cs).tail)
          else
            (scanKey (skipSpace cs)).bind fun k => (scanOnce n k.2).bind fun x =>
              (scanMembers n (skipSpace x.2)).map fun y => (.obj (dict ((k.1, x.1) :: y.1)), y.2)
      | cs => scanAtom cs

/-- What comes after an item of an array. -/
def scanItems : Nat → List Char → Option (List Json × List Char)
  | 0, _ => none
  | n + 1, cs =>
      match cs with
      | ']' :: cs => some ([], cs)
      | ',' :: cs =>
          (scanOnce n (skipSpace cs)).bind fun x =>
            (scanItems n (skipSpace x.2)).map fun y => (x.1 :: y.1, y.2)
      | _ => none

/-- What comes after a member of an object. -/
def scanMembers : Nat → List Char → Option (List (String × Json) × List Char)
  | 0, _ => none
  | n + 1, cs =>
      match cs with
      | '}' :: cs => some ([], cs)
      | ',' :: cs =>
          (scanKey (skipSpace cs)).bind fun k => (scanOnce n k.2).bind fun x =>
            (scanMembers n (skipSpace x.2)).map fun y => ((k.1, x.1) :: y.1, y.2)
      | _ => none

end

/-- `json.loads`; `none` where it raises `JSONDecodeError`. -/
def loads (cs : List Char) : Option Json :=
  (scanOnce (cs.length + 1) (skipSpace cs)).bind fun x => if skipSpace x.2
    = [] then some x.1 else none

example : dumps (.obj [("a", .arr [.int (-10), .null]), ("ä\n", .str "😀")])
    = "\x7b\"a\": [-10, null], \"\\u00e4\\n\": \"\\ud83d\\ude00\"\x7d".toList := by decide +kernel

end Wire
