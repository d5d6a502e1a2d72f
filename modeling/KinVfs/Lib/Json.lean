import Mathlib.Algebra.Group.Int.Defs
import Mathlib.Algebra.Group.Nat.Defs
import Mathlib.Tactic.Common

/-!
# JSON texts

A reader of JSON texts (RFC 8259) over characters. A string is read letter by letter (`letter`): a quote ends
it, a backslash starts an escape, and a control character may not stand in it. What a writer has to show of its
escapes is that each letter is read back (`stringTail_letters`); one that is not makes the text no JSON
(`stringTail_unreadable`).
-/

namespace Json

/-- A number is kept as it is spelled, an object with its members in their order. -/
inductive Value where
  | null
  | bool (b : Bool)
  | number (text : List Char)
  | string (s : List Char)
  | array (items : List Value)
  | object (members : List (List Char × Value))

/-! ## Strings -/

def hexValue (c : Char) : Option Nat :=
  if '0' ≤ c ∧ c ≤ '9' then some (c.toNat - '0'.toNat)
  else if 'a' ≤ c ∧ c ≤ 'f' then some (c.toNat - 'a'.toNat + 10)
  else if 'A' ≤ c ∧ c ≤ 'F' then some (c.toNat - 'A'.toNat + 10)
  else none

/-- The four digits of a `\u` escape. -/
def codeUnit : List Char → Option (Nat × List Char)
  | a :: b :: c :: d :: rest => do
    let a ← hexValue a
    let b ← hexValue b
    let c ← hexValue c
    let d ← hexValue d
    return (((a * 16 + b) * 16 + c) * 16 + d, rest)
  | _ => none

/-- The second half of a surrogate pair. -/
def lowSurrogate (high : Nat) : List Char → Option (Char × List Char)
  | '\\' :: 'u' :: rest => do
    let (low, rest) ← codeUnit rest
    if 0xdc00 ≤ low ∧ low < 0xe000 then
      some (Char.ofNat (0x10000 + (high - 0xd800) * 0x400 + (low - 0xdc00)), rest)
    else none
  | _ => none

/-- A `\u` escape; a surrogate stands in a pair only. -/
def unicodeEscape (text : List Char) : Option (Char × List Char) := do
  let (unit, rest) ← codeUnit text
  if 0xd800 ≤ unit ∧ unit < 0xdc00 then lowSurrogate unit rest
  else if 0xdc00 ≤ unit ∧ unit < 0xe000 then none
  else some (Char.ofNat unit, rest)

/-- What stands after a backslash. -/
def escape : List Char → Option (Char × List Char)
  | '\x22' :: rest => some ('\x22', rest)
  | '\\' :: rest => some ('\\', rest)
  | '/' :: rest => some ('/', rest)
  | 'b' :: rest => some ('\x08', rest)
  | 'f' :: rest => some ('\x0c', rest)
  | 'n' :: rest => some ('\n', rest)
  | 'r' :: rest => some ('\r', rest)
  | 't' :: rest => some ('\t', rest)
  | 'u' :: rest => unicodeEscape rest
  | _ => none

/-- One letter of a string. -/
def letter : List Char → Option (Char × List Char)
  | [] => none
  | c :: rest => if c = '\\' then escape rest else if c.toNat < 0x20 then none else some (c, rest)

/-- The rest of a string, up to its quote. -/
def stringTail : Nat → List Char → Option (List Char × List Char)
  | 0, _ | _, [] => none
  | fuel + 1, c :: rest =>
    if c = '\x22' then some ([], rest)
    else do
      let (c, rest) ← letter (c :: rest)
      let (s, rest) ← stringTail fuel rest
      return (c :: s, rest)

/-! ## Values -/

def skipWs (text : List Char) : List Char :=
  text.dropWhile fun c => c == ' ' || c == '\t' || c == '\n' || c == '\r'

def digits (text : List Char) : Option (List Char × List Char) :=
  let ds := text.takeWhile Char.isDigit
  if ds = [] then none else some (ds, text.dropWhile Char.isDigit)

/-- `0` stands alone in front of the point. -/
def integer : List Char → Option (List Char × List Char)
  | '0' :: rest => some (['0'], rest)
  | text => digits text

def fraction : List Char → Option (List Char × List Char)
  | '.' :: rest => (digits rest).map fun (ds, rest) => ('.' :: ds, rest)
  | text => some ([], text)

def exponent : List Char → Option (List Char × List Char)
  | [] => some ([], [])
  | e :: rest =>
    if e = 'e' ∨ e = 'E' then
      let (sign, rest) := match rest with
        | '+' :: rest => (['+'], rest)
        | '-' :: rest => (['-'], rest)
        | rest => ([], rest)
      (digits rest).map fun (ds, rest) => (e :: sign ++ ds, rest)
    else some ([], e :: rest)

def number (text : List Char) : Option (Value × List Char) := do
  let (sign, text) := match text with
    | '-' :: rest => (['-'], rest)
    | text => ([], text)
  let (whole, text) ← integer text
  let (frac, text) ← fraction text
  let (power, text) ← exponent text
  return (.number (sign ++ whole ++ frac ++ power), text)

/-- What stands after a member: another one, or the end of the object. -/
def afterMember (more : List Char → Option (List (List Char × Value) × List Char)) (key : List Char)
    (read : Value × List Char) : Option (List (List Char × Value) × List Char) :=
  match skipWs read.2 with
  | ',' :: rest => (more rest).map fun (members, rest) => ((key, read.1) :: members, rest)
  | '\x7d' :: rest => some ([(key, read.1)], rest)
  | _ => none

def afterItem (more : List Char → Option (List Value × List Char)) (read : Value × List Char) :
    Option (List Value × List Char) :=
  match skipWs read.2 with
  | ',' :: rest => (more rest).map fun (items, rest) => (read.1 :: items, rest)
  | ']' :: rest => some ([read.1], rest)
  | _ => none

mutual

def value : Nat → List Char → Option (Value × List Char)
  | 0, _ => none
  | fuel + 1, text =>
    match skipWs text with
    | '\x7b' :: rest =>
      match skipWs rest with
      | '\x7d' :: rest => some (.object [], rest)
      | rest => (members fuel rest).map fun (members, rest) => (.object members, rest)
    | '[' :: rest =>
      match skipWs rest with
      | ']' :: rest => some (.array [], rest)
      | rest => (items fuel rest).map fun (items, rest) => (.array items, rest)
    | '\x22' :: rest => (stringTail rest.length rest).map fun (s, rest) => (.string s, rest)
    | 't' :: 'r' :: 'u' :: 'e' :: rest => some (.bool true, rest)
    | 'f' :: 'a' :: 'l' :: 's' :: 'e' :: rest => some (.bool false, rest)
    | 'n' :: 'u' :: 'l' :: 'l' :: rest => some (.null, rest)
    | text => number text

def members : Nat → List Char → Option (List (List Char × Value) × List Char)
  | 0, _ => none
  | fuel + 1, text =>
    match skipWs text with
    | '\x22' :: rest => do
      let (key, rest) ← stringTail rest.length rest
      match skipWs rest with
      | ':' :: rest => (value fuel rest).bind (afterMember (members fuel) key)
      | _ => none
    | _ => none

def items : Nat → List Char → Option (List Value × List Char)
  | 0, _ => none
  | fuel + 1, text => (value fuel text).bind (afterItem (items fuel))

end

/-- Nothing but whitespace stands behind a value. -/
def finish : Option (Value × List Char) → Option Value
  | some (v, rest) => if skipWs rest = [] then some v else none
  | none => none

/-- The value of a text that is one JSON value. -/
def parse (text : List Char) : Option Value := finish (value (text.length + 1) text)

/-! ## Letters that are read back -/

section Letters

variable {enc : Char → List Char} {c : Char} {s rest : List Char} {fuel : Nat}

/-- A spelling of `c` that does not end the string, and what is read of it. -/
structure Spells (enc : Char → List Char) (c : Char) (read : List Char → Option (Char × List Char)) : Prop where
  open_ : ∃ first more, enc c = first :: more ∧ first ≠ '\x22'
  read : ∀ rest, letter (enc c ++ rest) = read rest

theorem Spells.stringTail {read : List Char → Option (Char × List Char)} (h : Spells enc c read)
    (fuel : Nat) (rest : List Char) :
    stringTail (fuel + 1) (enc c ++ rest) = (do
      let (c, rest) ← read rest
      let (s, rest) ← stringTail fuel rest
      return (c :: s, rest)) := by
  obtain ⟨first, more, henc, hquote⟩ := h.open_
  have hread := h.read rest
  rw [henc, List.cons_append] at hread ⊢
  rw [Json.stringTail, if_neg hquote, hread]

theorem stringTail_letters (h : ∀ c ∈ s, Spells enc c fun rest => some (c, rest)) (hfuel : s.length < fuel) :
    stringTail fuel (s.flatMap enc ++ '\x22' :: rest) = some (s, rest) := by
  induction s generalizing fuel with
  | nil =>
    obtain ⟨fuel, rfl⟩ := Nat.exists_eq_succ_of_ne_zero (Nat.ne_of_gt hfuel)
    rfl
  | cons c s ih =>
    obtain ⟨fuel, rfl⟩ := Nat.exists_eq_succ_of_ne_zero (Nat.ne_of_gt (Nat.zero_lt_of_lt hfuel))
    have hrest := ih (fun c' hc' => h c' (List.mem_cons_of_mem c hc')) (Nat.lt_of_succ_lt_succ hfuel)
    rw [List.flatMap_cons, List.append_assoc, (h c List.mem_cons_self).stringTail]
    simp only [Option.bind_eq_bind, Option.bind_some, hrest]
    rfl

/-- A string with a letter that cannot be read has no end. -/
theorem stringTail_unreadable {before : List Char} (h : ∀ c ∈ before, Spells enc c fun rest => some (c, rest))
    (hc : Spells enc c fun _ => none) (fuel : Nat) (rest : List Char) :
    stringTail fuel (before.flatMap enc ++ (enc c ++ rest)) = none := by
  induction before generalizing fuel with
  | nil =>
    cases fuel with
    | zero => rfl
    | succ fuel =>
      rw [List.flatMap_nil, List.nil_append, hc.stringTail]
      rfl
  | cons b before ih =>
    cases fuel with
    | zero => rfl
    | succ fuel =>
      have hrest := ih (fun c' hc' => h c' (List.mem_cons_of_mem b hc')) fuel
      rw [List.flatMap_cons, List.append_assoc, (h b List.mem_cons_self).stringTail]
      simp only [Option.bind_eq_bind, Option.bind_some, hrest]
      rfl

/-- A letter that stands for itself. -/
theorem spells_self (hquote : c ≠ '\x22') (hslash : c ≠ '\\') (hctrl : 0x20 ≤ c.toNat) (henc : enc c = [c]) :
    Spells enc c fun rest => some (c, rest) where
  open_ := ⟨c, [], henc, hquote⟩
  read rest := by
    rw [henc, List.singleton_append, letter, if_neg hslash, if_neg (Nat.not_lt.mpr hctrl)]

/-- A control character cannot stand for itself. -/
theorem spells_control (hctrl : c.toNat < 0x20) (henc : enc c = [c]) : Spells enc c fun _ => none where
  open_ := by
    refine ⟨c, [], henc, ?_⟩
    rintro rfl
    exact absurd hctrl (by decide)
  read rest := by
    have hslash : c ≠ '\\' := by
      rintro rfl
      exact absurd hctrl (by decide)
    rw [henc, List.singleton_append, letter, if_neg hslash, if_pos hctrl]

/-- A text between quotes, up to the length that a reader has. -/
theorem quoted (h : ∀ c ∈ s, Spells enc c fun rest => some (c, rest)) (rest : List Char) :
    stringTail (s.flatMap enc ++ '\x22' :: rest).length (s.flatMap enc ++ '\x22' :: rest) = some (s, rest) := by
  refine stringTail_letters h ?_
  have hlen : s.length ≤ (s.flatMap enc).length := by
    induction s with
    | nil => exact Nat.le_refl 0
    | cons c s ih =>
      obtain ⟨first, more, henc, -⟩ := (h c List.mem_cons_self).open_
      have := ih fun c' hc' => h c' (List.mem_cons_of_mem c hc')
      rw [List.flatMap_cons, henc, List.length_append, List.length_cons, List.length_cons]
      omega
  rw [List.length_append, List.length_cons]
  omega

/-- A text that needs no escapes. -/
theorem quoted_plain (h : ∀ c ∈ s, c ≠ '\x22' ∧ c ≠ '\\' ∧ 0x20 ≤ c.toNat) (rest : List Char) :
    stringTail (s ++ '\x22' :: rest).length (s ++ '\x22' :: rest) = some (s, rest) := by
  have hself : s.flatMap (fun c => [c]) = s := by simp
  have hspells : ∀ c ∈ s, Spells (fun c => [c]) c fun rest => some (c, rest) := by
    intro c hc
    exact spells_self (h c hc).1 (h c hc).2.1 (h c hc).2.2 rfl
  have hread := quoted hspells rest
  rw [hself] at hread
  exact hread

end Letters

/-! ## Objects -/

section Objects

variable {key text rest : List Char} {fuel : Nat}

theorem value_object (fuel : Nat) (rest : List Char) :
    value (fuel + 1) ('\x7b' :: '\x22' :: rest) =
      (members fuel ('\x22' :: rest)).map fun (members, rest) => (.object members, rest) := rfl

theorem value_string (fuel : Nat) (rest : List Char) :
    value (fuel + 1) ('\x22' :: rest) =
      (stringTail rest.length rest).map fun (s, rest) => (.string s, rest) := rfl

theorem members_key (hkey : ∀ c ∈ key, c ≠ '\x22' ∧ c ≠ '\\' ∧ 0x20 ≤ c.toNat) :
    members (fuel + 1) ('\x22' :: (key ++ '\x22' :: ':' :: rest)) =
      (value fuel rest).bind (afterMember (members fuel) key) := by
  have hmembers : ∀ text, members (fuel + 1) ('\x22' :: text) =
      (stringTail text.length text).bind fun read =>
        match skipWs read.2 with
        | ':' :: rest => (value fuel rest).bind (afterMember (members fuel) read.1)
        | _ => none := fun _ => rfl
  rw [hmembers, quoted_plain hkey]
  rfl

end Objects

end Json
