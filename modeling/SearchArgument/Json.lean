import SearchArgument.Decimal.Basic

/-! JSON documents and their text. Integers are exact. A number with a fraction or an
exponent, and a string that names half of a surrogate pair, keep only their place in the
document: neither is ever a part of what this library stores. Writing leaves no white space and
escapes what a string cannot hold bare. Reading is strict: no leading zeros, no bare control
characters, and nothing but white space around the document. -/

namespace SearchArgument

inductive Json where
  | null
  | bool (b : Bool)
  | integer (n : Int)
  | real
  | string (text : Option String)
  | array (items : List Json)
  | object (members : List (Option String × Json))
  deriving Inhabited

namespace Json

def text (s : String) : Json := .string (some s)

/-- An object with the given keys, in order. -/
def record (members : List (String × Json)) : Json :=
  .object (members.map fun m => (some m.1, m.2))

def int64? : Json → Option Int64
  | .integer n => SearchArgument.int64? n
  | _ => none

def uint64? : Json → Option UInt64
  | .integer n => SearchArgument.uint64? n
  | _ => none

/-- The only value under a key; a repeated key is refused. -/
def only? (members : List (Option String × Json)) (key : String) : Option Json :=
  match members.filter (·.1 = some key) with
  | [m] => some m.2
  | _ => none

/-! ### Writing -/

/-- A control character as an escape of four hexadecimal digits. -/
def hexEscape (c : Char) : List Char :=
  ['\\', 'u', '0', '0', Nat.digitChar (c.toNat / 16), Nat.digitChar (c.toNat % 16)]

def escape (c : Char) : List Char :=
  if c = '"' then ['\\', '"']
  else if c = '\\' then ['\\', '\\']
  else if c = '\x08' then ['\\', 'b']
  else if c = '\t' then ['\\', 't']
  else if c = '\n' then ['\\', 'n']
  else if c = '\x0c' then ['\\', 'f']
  else if c = '\r' then ['\\', 'r']
  else if c.toNat < 0x20 then hexEscape c
  else [c]

/-- A quoted string. The half of a surrogate pair is written by its escape. -/
def writtenString : Option String → List Char
  | some s => '"' :: s.toList.flatMap escape ++ ['"']
  | none => "\"\\ud800\"".toList

def writtenInt (n : Int) : List Char :=
  if n < 0 then '-' :: Nat.toDigits 10 n.natAbs else Nat.toDigits 10 n.natAbs

mutual

def written : Json → List Char
  | .null => "null".toList
  | .bool true => "true".toList
  | .bool false => "false".toList
  | .integer n => writtenInt n
  | .real => "0.0".toList
  | .string s => writtenString s
  | .array [] => ['[', ']']
  | .array (x :: xs) => '[' :: written x ++ writtenItems xs
  | .object [] => ['\x7b', '\x7d']
  | .object ((k, v) :: ms) => '\x7b' :: writtenString k ++ ':' :: written v ++ writtenMembers ms

/-- The items behind the first, and the closing bracket. -/
def writtenItems : List Json → List Char
  | [] => [']']
  | x :: xs => ',' :: written x ++ writtenItems xs

/-- The members behind the first, and the closing brace. -/
def writtenMembers : List (Option String × Json) → List Char
  | [] => ['\x7d']
  | (k, v) :: ms => ',' :: writtenString k ++ ':' :: written v ++ writtenMembers ms

end

def render (j : Json) : String := .ofList j.written

/-! ### Reading -/

def isBlank (c : Char) : Bool := c == ' ' || c == '\t' || c == '\n' || c == '\r'

def skipBlank (cs : List Char) : List Char := cs.dropWhile isBlank

def hexValue? (c : Char) : Option Nat :=
  if c.isDigit then some (c.toNat - '0'.toNat)
  else if 'a' ≤ c ∧ c ≤ 'f' then some (c.toNat - 'a'.toNat + 10)
  else if 'A' ≤ c ∧ c ≤ 'F' then some (c.toNat - 'A'.toNat + 10)
  else none

/-- The character that a one letter escape names. -/
def unescape? : Char → Option Char
  | '"' => some '"'
  | '\\' => some '\\'
  | '/' => some '/'
  | 'b' => some '\x08'
  | 'f' => some '\x0c'
  | 'n' => some '\n'
  | 'r' => some '\r'
  | 't' => some '\t'
  | _ => none

/-- The code points of a string up to its closing quote. Surrogates stay apart. -/
def readUnits : List Char → Option (List Nat × List Char)
  | [] => none
  | '"' :: cs => some ([], cs)
  | '\\' :: 'u' :: a :: b :: c :: d :: cs => do
    let n := ((← hexValue? a) * 16 + (← hexValue? b)) * 16 + (← hexValue? c)
    let n := n * 16 + (← hexValue? d)
    let (ns, cs) ← readUnits cs
    return (n :: ns, cs)
  | '\\' :: e :: cs => do
    let c ← unescape? e
    let (ns, cs) ← readUnits cs
    return (c.toNat :: ns, cs)
  | c :: cs =>
    if c.toNat < 0x20 then none
    else do
      let (ns, cs) ← readUnits cs
      return (c.toNat :: ns, cs)

def isLead (n : Nat) : Bool := 0xd800 ≤ n && n < 0xdc00

def isTrail (n : Nat) : Bool := 0xdc00 ≤ n && n < 0xe000

/-- Joins surrogate pairs; a surrogate without its partner is no character. -/
def joinUnits : List Nat → Option (List Char)
  | [] => some []
  | a :: b :: ns =>
    if isLead a && isTrail b then
      (joinUnits ns).map (Char.ofNat (0x10000 + (a - 0xd800) * 0x400 + (b - 0xdc00)) :: ·)
    else if isLead a || isTrail a then none
    else (joinUnits (b :: ns)).map (Char.ofNat a :: ·)
  | [a] => if isLead a || isTrail a then none else some [Char.ofNat a]

/-- The rest of a string whose opening quote has been read. -/
def readString (cs : List Char) : Option (Option String × List Char) := do
  let (ns, cs) ← readUnits cs
  return ((joinUnits ns).map .ofList, cs)

/-- Digits, of which there is at least one. -/
def readDigits (cs : List Char) : Option (List Char × List Char) :=
  match cs.takeWhile Char.isDigit with
  | [] => none
  | ds => some (ds, cs.dropWhile Char.isDigit)

/-- The integer part of a number, without its sign. -/
def readNat (cs : List Char) : Option (Nat × List Char) :=
  match readDigits cs with
  | some ('0' :: _ :: _, _) => none
  | some (ds, cs) => some (ds.foldl (fun n c => 10 * n + (c.toNat - '0'.toNat)) 0, cs)
  | none => none

/-- Skips a fraction, and tells whether there was one. -/
def skipFraction : List Char → Option (Bool × List Char)
  | '.' :: cs => (readDigits cs).map fun r => (true, r.2)
  | cs => some (false, cs)

/-- Skips an exponent, and tells whether there was one. -/
def skipExponent : List Char → Option (Bool × List Char)
  | [] => some (false, [])
  | c :: cs =>
    if c = 'e' ∨ c = 'E' then
      let ds := if cs.head? = some '+' ∨ cs.head? = some '-' then cs.tail else cs
      (readDigits ds).map fun r => (true, r.2)
    else some (false, c :: cs)

/-- A number; a zero with a minus sign is no integer. -/
def readNumber (cs : List Char) : Option (Json × List Char) := do
  let negative := cs.head? = some '-'
  let (n, cs) ← readNat (if negative then cs.tail else cs)
  let (fraction, cs) ← skipFraction cs
  let (exponent, cs) ← skipExponent cs
  if fraction || exponent || (negative && n == 0) then return (.real, cs)
  return (.integer (if negative then -n else n), cs)

mutual

/-- One value at the front. The first argument bounds the number of nested calls. -/
def readValue : Nat → List Char → Option (Json × List Char)
  | 0, _ => none
  | fuel + 1, cs =>
    match cs with
    | 'n' :: 'u' :: 'l' :: 'l' :: cs => some (.null, cs)
    | 't' :: 'r' :: 'u' :: 'e' :: cs => some (.bool true, cs)
    | 'f' :: 'a' :: 'l' :: 's' :: 'e' :: cs => some (.bool false, cs)
    | '"' :: cs => (readString cs).map fun r => (.string r.1, r.2)
    | '[' :: cs =>
      match skipBlank cs with
      | ']' :: cs => some (.array [], cs)
      | cs => (readItems fuel cs).map fun r => (.array r.1, r.2)
    | '\x7b' :: cs =>
      match skipBlank cs with
      | '\x7d' :: cs => some (.object [], cs)
      | cs => (readMembers fuel cs).map fun r => (.object r.1, r.2)
    | cs => readNumber cs

/-- The items of an array up to its closing bracket. -/
def readItems : Nat → List Char → Option (List Json × List Char)
  | 0, _ => none
  | fuel + 1, cs => do
    let (x, cs) ← readValue fuel cs
    match skipBlank cs with
    | ']' :: cs => return ([x], cs)
    | ',' :: cs =>
      let (xs, cs) ← readItems fuel (skipBlank cs)
      return (x :: xs, cs)
    | _ => none

/-- The members of an object up to its closing brace. -/
def readMembers : Nat → List Char → Option (List (Option String × Json) × List Char)
  | 0, _ => none
  | fuel + 1, '"' :: cs => do
    let (k, cs) ← readString cs
    match skipBlank cs with
    | ':' :: cs =>
      let (v, cs) ← readValue fuel (skipBlank cs)
      match skipBlank cs with
      | '\x7d' :: cs => return ([(k, v)], cs)
      | ',' :: cs =>
        let (ms, cs) ← readMembers fuel (skipBlank cs)
        return ((k, v) :: ms, cs)
      | _ => none
    | _ => none
  | _, _ => none

end

/-- A whole document. Each nested call reads at least one character for every two, so
twice the length is bound enough. -/
def read (cs : List Char) : Option Json :=
  match readValue (2 * cs.length + 1) (skipBlank cs) with
  | some (j, cs) => if (skipBlank cs).isEmpty then some j else none
  | none => none

def parse? (s : String) : Option Json := read s.toList

end Json

end SearchArgument
