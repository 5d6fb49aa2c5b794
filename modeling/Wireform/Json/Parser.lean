import Wireform.Json.Basic
import Wireform.Double.Rounding
import Wireform.Text.Integer

/-!
# Reading JSON text

Standard JSON and nothing else, with a bound on the number of open arrays and objects. A reader
takes the characters that are left and gives back what it read and the rest.
-/

namespace Wireform.Json

def isBlank (c : Char) : Bool := c = ' ' || c = '\n' || c = '\t' || c = '\r'

def skipBlank (cs : List Char) : List Char := cs.dropWhile isBlank

/-! ### Strings -/

def hexDigit? (c : Char) : Option Nat :=
  if '0' ≤ c && c ≤ '9' then some (c.toNat - '0'.toNat)
  else if 'a' ≤ c && c ≤ 'f' then some (c.toNat - 'a'.toNat + 10)
  else if 'A' ≤ c && c ≤ 'F' then some (c.toNat - 'A'.toNat + 10)
  else none

def hexUnit? (a b c d : Char) : Option Nat := do
  return (((← hexDigit? a) * 16 + (← hexDigit? b)) * 16 + (← hexDigit? c)) * 16 + (← hexDigit? d)

def isLeadingUnit (n : Nat) : Bool := 0xd800 ≤ n && n < 0xdc00

def isTrailingUnit (n : Nat) : Bool := 0xdc00 ≤ n && n < 0xe000

/-- The character of a leading and a trailing unit. -/
def pairedChar (lead trail : Nat) : Char :=
  Char.ofNat (0x10000 + (lead - 0xd800) * 0x400 + (trail - 0xdc00))

def shortEscape? (c : Char) : Option Char :=
  if c = '"' || c = '\\' || c = '/' then some c
  else if c = 'b' then some (Char.ofNat 8)
  else if c = 'f' then some (Char.ofNat 12)
  else if c = 'n' then some '\n'
  else if c = 'r' then some '\r'
  else if c = 't' then some '\t'
  else none

/-- The characters up to the closing quote, and what follows it. Units of a pair that stand alone
are refused, and so are bare controls. -/
def stringTail : List Char → Option (List Char × List Char)
  | [] => none
  | c :: cs =>
    if c = '"' then some ([], cs)
    else if c = '\\' then
      match cs with
      | 'u' :: a :: b :: c :: d :: cs =>
        match hexUnit? a b c d with
        | none => none
        | some n =>
          if isTrailingUnit n then none
          else if isLeadingUnit n then
            match cs with
            | '\\' :: 'u' :: a :: b :: c :: d :: cs =>
              match hexUnit? a b c d with
              | none => none
              | some m =>
                if isTrailingUnit m then
                  (stringTail cs).map fun r => (pairedChar n m :: r.1, r.2)
                else none
            | _ => none
          else (stringTail cs).map fun r => (Char.ofNat n :: r.1, r.2)
      | e :: cs =>
        match shortEscape? e with
        | none => none
        | some ch => (stringTail cs).map fun r => (ch :: r.1, r.2)
      | [] => none
    else if c.toNat < 0x20 then none
    else (stringTail cs).map fun r => (c :: r.1, r.2)

/-! ### Numbers -/

/-- A number as it is spelled. -/
structure Numeral where
  negative : Bool
  whole : List Char
  /-- Digits after the point, if there is one. -/
  fraction : Option (List Char)
  exponent : Option Int

def digits1? (cs : List Char) : Option (List Char × List Char) :=
  let ds := cs.takeWhile Text.isDigit
  if ds.isEmpty then none else some (ds, cs.dropWhile Text.isDigit)

/-- No digit may follow a leading zero. -/
def whole? (cs : List Char) : Option (List Char × List Char) := do
  let (ds, rest) ← digits1? cs
  if ds.head? = some '0' && 1 < ds.length then none else some (ds, rest)

def fraction? : List Char → Option (Option (List Char) × List Char)
  | '.' :: cs => do
    let (ds, rest) ← digits1? cs
    some (some ds, rest)
  | cs => some (none, cs)

def signedDigits? (cs : List Char) : Option (Int × List Char) := do
  let (negative, cs) := match cs with
    | '-' :: cs => (true, cs)
    | '+' :: cs => (false, cs)
    | cs => (false, cs)
  let (ds, rest) ← digits1? cs
  let n : Int := Text.digitsValue ds
  some (if negative then -n else n, rest)

def exponent? : List Char → Option (Option Int × List Char)
  | c :: cs =>
    if c = 'e' || c = 'E' then do
      let (n, rest) ← signedDigits? cs
      some (some n, rest)
    else some (none, c :: cs)
  | [] => some (none, [])

def numeral? (cs : List Char) : Option (Numeral × List Char) := do
  let (negative, cs) := match cs with
    | '-' :: cs => (true, cs)
    | cs => (false, cs)
  let (whole, cs) ← whole? cs
  let (fraction, cs) ← fraction? cs
  let (exponent, cs) ← exponent? cs
  some (⟨negative, whole, fraction, exponent⟩, cs)

/-- The nearest float, refused if out of range. -/
def Numeral.float? (n : Numeral) : Option Number :=
  let fraction := n.fraction.getD []
  match Double.ofDecimal? n.negative (Text.digitsValue (n.whole ++ fraction))
      (n.exponent.getD 0 - fraction.length) with
  | some x => if h : x.isFinite = true then some (.float x h) else none
  | none => none

/-- Plain digits are an integer if they fit 64 bits, unsigned or with a sign; all else is a float,
minus zero too. -/
def Numeral.number? (n : Numeral) : Option Number :=
  if n.fraction.isSome || n.exponent.isSome then n.float?
  else
    let m := Text.digitsValue n.whole
    if n.negative then
      if 0 < m && m ≤ 0x8000000000000000 then some (.int (-(m : Int))) else n.float?
    else if m < 0x10000000000000000 then some (.int m)
    else n.float?

/-! ### Values -/

abbrev Reader (α : Type) := List Char → Option (α × List Char)

/-- One or more items with commas between them, up to the closing character. `fuel` bounds their
number. -/
def separated {α : Type} (close : Char) (item : Reader α) : Nat → Reader (List α)
  | 0, _ => none
  | fuel + 1, cs =>
    match item cs with
    | none => none
    | some (x, cs) =>
      match skipBlank cs with
      | ',' :: cs => (separated close item fuel cs).map fun r => (x :: r.1, r.2)
      | c :: cs => if c = close then some ([x], cs) else none
      | [] => none

/-- What follows an opening bracket, up to the closing one. -/
def bracketed {α : Type} (close : Char) (item : Reader α) : Reader (List α) := fun cs =>
  match skipBlank cs with
  | [] => none
  | c :: rest => if c = close then some ([], rest)
    else separated close item (rest.length + 1) (c :: rest)

/-- A property: its name, read with `name` after the opening quote, and its value. -/
def member {α : Type} (name : Reader (List Char)) (item : String → Reader α) :
    Reader (String × α) := fun cs =>
  match skipBlank cs with
  | '"' :: cs =>
    match name cs with
    | none => none
    | some (key, cs) =>
      let key := String.ofList key
      match skipBlank cs with
      | ':' :: cs => (item key cs).map fun r => ((key, r.1), r.2)
      | _ => none
  | _ => none

/-- Everything but arrays and objects. -/
def scalar? : List Char → Option (Json × List Char)
  | 'n' :: 'u' :: 'l' :: 'l' :: cs => some (.null, cs)
  | 't' :: 'r' :: 'u' :: 'e' :: cs => some (.bool true, cs)
  | 'f' :: 'a' :: 'l' :: 's' :: 'e' :: cs => some (.bool false, cs)
  | '"' :: cs => (stringTail cs).map fun r => (.str (String.ofList r.1), r.2)
  | cs => do
    let (n, cs) ← numeral? cs
    let n ← n.number?
    some (.num n, cs)

/-- A value with at most `levels` arrays and objects open at once. A name met again keeps its
first position and takes the last value. -/
def value : Nat → List Char → Option (Json × List Char)
  | 0, cs => scalar? (skipBlank cs)
  | levels + 1, cs =>
    match skipBlank cs with
    | '[' :: cs => (bracketed ']' (value levels) cs).map fun r => (.arr r.1, r.2)
    | '{' :: cs =>
      (bracketed '}' (member stringTail fun _ => value levels) cs).map fun r =>
        (.obj (Fields.ofList r.1), r.2)
    | cs => scalar? cs

/-- Reads a whole text with blanks around it. -/
def whole {α : Type} (item : Reader α) (text : String) : Option α :=
  match item text.toList with
  | some (a, rest) => if (skipBlank rest).isEmpty then some a else none
  | none => none

def parseWithin? (levels : Nat) (text : String) : Option Json := whole (value levels) text

/-- Arrays and objects that a document may have open at once. -/
def maxLevels : Nat := 127

def parse? (text : String) : Option Json := parseWithin? maxLevels text

end Wireform.Json
