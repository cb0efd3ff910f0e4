import Mathlib.Data.Nat.Init
import AgentPrimitives.Serde.Document

/-!
# JSON texts

A *text format* writes documents as texts and reads texts as documents, such
that a document whose numbers are integers is read back from what is written,
unless it is nested too deeply (`TextFormat.parse_print`).

`compact` is such a format: documents are written without blanks, and read
by recursive descent, each array or object spending one of the levels that are
left. Reading numbers that are not integers is left out.
-/

namespace Serde

/-- A number that is a 64-bit integer. -/
def Number.IsInteger : Number → Prop
  | .float _ _ => False
  | _ => True

/-- A document whose numbers are 64-bit integers. -/
abbrev Json.IntegerOnly : Json → Prop := Json.Numbers Number.IsInteger

/-- How documents are written and read. -/
structure TextFormat where
  /-- `serde_json::to_string`, of a document. -/
  print : Json → String
  /-- The document of a text, if it is not nested too deeply. -/
  parse : String → Option Json
  parse_print : ∀ j : Json, j.IntegerOnly →
    parse (print j) = if j.depth ≤ recursionLimit then some j else none

namespace TextFormat

variable {α : Type} (F : TextFormat)

/-- `serde_json::to_string`. -/
def toStr (serialize : α → Json) (a : α) : String := F.print (serialize a)

/-- `serde_json::from_str`, as far as `fromDocument` is. -/
def fromStr (deserialize : Json → Option α) (t : String) : Option α :=
  (F.parse t).bind deserialize

/-- A text whose numbers are 64-bit integers. -/
def IntegerText (t : String) : Prop := ∀ j, F.parse t = some j → j.IntegerOnly

/-- What is written is read as the document that is written. -/
theorem fromStr_toStr {serialize : α → Json} {a : α} (h : (serialize a).IntegerOnly)
    (deserialize : Json → Option α) :
    F.fromStr deserialize (F.toStr serialize a) = fromDocument deserialize (serialize a) := by
  rw [fromStr, toStr, F.parse_print _ h, fromDocument]
  split_ifs <;> rfl

/-- What is read from a text whose numbers are integers is read from such a document. -/
theorem exists_of_fromStr {deserialize : Json → Option α} {t : String} (ht : F.IntegerText t)
    {a : α} (h : F.fromStr deserialize t = some a) :
    ∃ j : Json, j.IntegerOnly ∧ deserialize j = some a := by
  obtain ⟨j, hj, ha⟩ := Option.bind_eq_some_iff.1 h
  exact ⟨j, ht j hj, ha⟩

end TextFormat

namespace Text

/-! ## Writing -/

/-- The characters that are escaped by a letter, or by themselves. -/
def escapes : List (Char × Char) :=
  [('"', '"'), ('\\', '\\'), ('\x08', 'b'), ('\x0c', 'f'), ('\n', 'n'), ('\r', 'r'), ('\t', 't')]

/-- A control character is written as its code. -/
def isControl (c : Char) : Bool := c.toNat < 0x20

/-- A character of a string, escaped if it has to be. -/
def printChar (c : Char) : List Char :=
  match escapes.lookup c with
  | some e => ['\\', e]
  | none =>
    if isControl c then
      ['\\', 'u', '0', '0', (c.toNat / 16).digitChar, (c.toNat % 16).digitChar]
    else [c]

/-- A string, in quotes. -/
def printString (s : String) : List Char := '"' :: s.toList.flatMap printChar ++ ['"']

/-- Items are separated by commas. -/
def separate : List (List Char) → List Char
  | [] => []
  | [x] => x
  | x :: y :: xs => x ++ ',' :: separate (y :: xs)

section Print

variable (formatFloat : UInt64 → List Char)

/-- An integer in decimal digits, or a float as it is formatted. -/
def printNumber : Number → List Char
  | .posInt n => Nat.toDigits 10 n.toNat
  | .negInt i _ => '-' :: Nat.toDigits 10 i.toInt.natAbs
  | .float bits _ => formatFloat bits

/-- A member, its name before the text of its value. -/
def printMember (m : String × List Char) : List Char := printString m.1 ++ ':' :: m.2

/-- The characters of a document. -/
def print : Json → List Char :=
  Json.fold {
    null := ['n', 'u', 'l', 'l']
    bool := fun b => if b then ['t', 'r', 'u', 'e'] else ['f', 'a', 'l', 's', 'e']
    number := printNumber formatFloat
    string := printString
    array := fun xs => '[' :: separate xs ++ [']']
    object := fun ms => '\x7b' :: separate (ms.map printMember) ++ ['\x7d'] }

end Print

/-! ## Reading -/

/-- What may stand between tokens. -/
def isBlank (c : Char) : Bool := c = ' ' || c = '\n' || c = '\r' || c = '\t'

/-- What follows the blanks. -/
def skipBlank (cs : List Char) : List Char := cs.dropWhile isBlank

/-- The value of a hexadecimal digit. -/
def hexValue (c : Char) : Option ℕ :=
  if c.isDigit then some (c.toNat - 48)
  else if 'a' ≤ c && c ≤ 'f' then some (c.toNat - 87)
  else if 'A' ≤ c && c ≤ 'F' then some (c.toNat - 55)
  else none

/-- Four hexadecimal digits. -/
def parseHex : List Char → Option (ℕ × List Char)
  | a :: b :: c :: d :: cs => do
    let a ← hexValue a
    let b ← hexValue b
    let c ← hexValue c
    let d ← hexValue d
    return (((a * 16 + b) * 16 + c) * 16 + d, cs)
  | _ => none

/-- The code of a character, in one or, as a pair of surrogates, in two parts. -/
def parseCode (cs : List Char) : Option (Char × List Char) := do
  let (n, cs) ← parseHex cs
  if n < 0xd800 || 0xe000 ≤ n then return (Char.ofNat n, cs)
  else match cs with
    | '\\' :: 'u' :: cs => do
      let (m, cs) ← parseHex cs
      if n < 0xdc00 && 0xdc00 ≤ m && m < 0xe000 then
        return (Char.ofNat (0x10000 + (n - 0xd800) * 0x400 + (m - 0xdc00)), cs)
      else none
    | _ => none

/-- One character of a string. -/
def parseChar : List Char → Option (Char × List Char)
  | '\\' :: 'u' :: cs => parseCode cs
  | '\\' :: e :: cs => (('/', '/') :: escapes).find? (fun m => m.2 = e) |>.map fun m => (m.1, cs)
  | c :: cs => if isControl c || c = '"' || c = '\\' then none else some (c, cs)
  | [] => none

/-- The characters of a string, less than `n` of them, up to its closing quote. -/
def parseChars : ℕ → List Char → Option (List Char × List Char)
  | 0, _ => none
  | n + 1, cs =>
    if cs.head? = some '"' then some ([], cs.tail)
    else do
      let (c, cs) ← parseChar cs
      let (s, cs) ← parseChars n cs
      return (c :: s, cs)

/-- A string, past its opening quote. -/
def parseString (cs : List Char) : Option (String × List Char) :=
  (parseChars cs.length cs).map fun (s, cs) => (String.ofList s, cs)

/-- An integer of 64 bits, without leading zeros. -/
def parseInteger (negative : Bool) (digits : List Char) : Option Number :=
  let n := Nat.ofDigitChars 10 digits 0
  if Nat.toDigits 10 n ≠ digits then none
  else if negative then
    if 0 < n && n ≤ 2 ^ 63 then some (Number.fromI64 (Int64.ofInt (-n))) else none
  else if n < 2 ^ 64 then some (.posInt (UInt64.ofNat n)) else none

/-- An integer, with a sign or without. Fractions and exponents are not read. -/
def parseNumber (cs : List Char) : Option (Number × List Char) :=
  let unsigned := if cs.head? = some '-' then cs.tail else cs
  let rest := unsigned.dropWhile Char.isDigit
  if rest.head? ∈ [some '.', some 'e', some 'E'] then none
  else (parseInteger (cs.head? = some '-') (unsigned.takeWhile Char.isDigit)).map fun n => (n, rest)

section Items

variable {α : Type} (parse : List Char → Option (α × List Char)) (close : Char)

/-- At most `n` items, the first of which follows, up to the closing bracket. -/
def parseItems : ℕ → List Char → Option (List α × List Char)
  | 0, _ => none
  | n + 1, cs => do
    let (x, cs) ← parse (skipBlank cs)
    match skipBlank cs with
    | [] => none
    | c :: cs =>
      if c = close then return ([x], cs)
      else if c = ',' then do
        let (xs, cs) ← parseItems n cs
        return (x :: xs, cs)
      else none

/-- Items, past the opening bracket. -/
def parseMany (cs : List Char) : Option (List α × List Char) :=
  if (skipBlank cs).head? = some close then some ([], (skipBlank cs).tail)
  else parseItems parse close cs.length cs

/-- A member of an object. -/
def parseMember : List Char → Option ((String × α) × List Char)
  | '"' :: cs => do
    let (k, cs) ← parseString cs
    match skipBlank cs with
    | ':' :: cs => do
      let (x, cs) ← parse (skipBlank cs)
      return ((k, x), cs)
    | _ => none
  | _ => none

end Items

/-- A literal, past its first character. -/
def parseLiteral (name : List Char) (j : Json) (cs : List Char) : Option (Json × List Char) :=
  if name.isPrefixOf cs then some (j, cs.drop name.length) else none

/-- A document, given how the documents inside are read, if there may be any. -/
def parseWith (inside : Option (List Char → Option (Json × List Char))) :
    List Char → Option (Json × List Char)
  | 'n' :: cs => parseLiteral ['u', 'l', 'l'] .null cs
  | 't' :: cs => parseLiteral ['r', 'u', 'e'] (.bool true) cs
  | 'f' :: cs => parseLiteral ['a', 'l', 's', 'e'] (.bool false) cs
  | '"' :: cs => (parseString cs).map fun (s, cs) => (.string s, cs)
  | '[' :: cs => inside.bind fun parse =>
    (parseMany parse ']' cs).map fun (xs, cs) => (.array xs, cs)
  | '\x7b' :: cs => inside.bind fun parse =>
    (parseMany (parseMember parse) '\x7d' cs).map fun (ms, cs) => (.object ms, cs)
  | cs => (parseNumber cs).map fun (n, cs) => (.number n, cs)

/-- A document with at most `n` levels. -/
def parseUpTo : ℕ → List Char → Option (Json × List Char)
  | 0 => parseWith none
  | n + 1 => parseWith (some (parseUpTo n))

/-- The document of a text. -/
def parse (cs : List Char) : Option Json := do
  let (j, cs) ← parseUpTo recursionLimit (skipBlank cs)
  if skipBlank cs = [] then return j else none

/-! ## Reading what is written -/

theorem hexValue_digitChar : ∀ n < 16, hexValue n.digitChar = some n := by decide

/-- A control character is read back from its code. -/
theorem parseHex_digitChar {n : ℕ} (hn : n < 256) (cs : List Char) :
    parseHex ('0' :: '0' :: (n / 16).digitChar :: (n % 16).digitChar :: cs) = some (n, cs) := by
  have hzero : hexValue '0' = some 0 := by decide
  have hhigh := hexValue_digitChar (n / 16) (by omega)
  have hlow := hexValue_digitChar (n % 16) (Nat.mod_lt n (by decide))
  simp [parseHex, hzero, hhigh, hlow, Nat.div_add_mod']

/-- A character is read back, escaped or not. -/
theorem parseChar_printChar (c : Char) (cs : List Char) :
    parseChar (printChar c ++ cs) = some (c, cs) := by
  rw [printChar]
  cases h : escapes.lookup c with
  | some e =>
    have hmem := Map.mem_of_lookup h
    simp only [escapes, List.mem_cons, Prod.mk.injEq, List.not_mem_nil, or_false] at hmem
    -- An escape is read from the table it was written from.
    rcases hmem with ⟨rfl, rfl⟩ | ⟨rfl, rfl⟩ | ⟨rfl, rfl⟩ | ⟨rfl, rfl⟩ | ⟨rfl, rfl⟩ | ⟨rfl, rfl⟩ |
      ⟨rfl, rfl⟩ <;> rfl
  | none =>
    have hkeys := Map.lookup_eq_none.1 h
    simp only [escapes, Map.keys_cons, Map.keys_nil, List.mem_cons, not_or] at hkeys
    dsimp only
    split_ifs with hc
    · -- A control character is read from its code.
      have hc' : c.toNat < 0x20 := by simpa [isControl] using hc
      have hcode : c.toNat < 0xd800 := by omega
      simp [parseChar, parseCode, parseHex_digitChar (show c.toNat < 256 by omega), hcode]
    · simp [parseChar, hc, hkeys]

/-- No character is written with a quote first, which would close the string. -/
theorem head?_printChar (c : Char) (cs : List Char) : (printChar c ++ cs).head? ≠ some '"' := by
  rw [printChar]
  cases h : escapes.lookup c with
  | some e => simp
  | none =>
    have hkeys := Map.lookup_eq_none.1 h
    simp only [escapes, Map.keys_cons, Map.keys_nil, List.mem_cons, not_or] at hkeys
    dsimp only
    split_ifs <;> simp [hkeys]

/-- The characters of a string are read back, up to the quote that closes it. -/
theorem parseChars_flatMap (s : List Char) {n : ℕ} (hn : s.length < n) (cs : List Char) :
    parseChars n (s.flatMap printChar ++ '"' :: cs) = some (s, cs) := by
  obtain ⟨n, rfl⟩ := Nat.exists_eq_succ_of_ne_zero (Nat.ne_zero_of_lt hn)
  induction s generalizing n with
  | nil => simp [parseChars]
  | cons c s ih =>
    rw [List.flatMap_cons, List.append_assoc, parseChars, if_neg (head?_printChar c _),
      parseChar_printChar]
    obtain ⟨m, rfl⟩ := Nat.exists_eq_succ_of_ne_zero (Nat.ne_zero_of_lt (Nat.lt_of_succ_lt_succ hn))
    simp [ih m (Nat.lt_of_succ_lt_succ hn)]

/-- Every character is written with at least one, so that the length of the text is fuel
    enough. -/
theorem length_le_flatMap_printChar (s : List Char) : s.length ≤ (s.flatMap printChar).length := by
  induction s with
  | nil => exact le_rfl
  | cons c s ih =>
    have hc : 0 < (printChar c).length := by
      rw [printChar]
      split
      · exact Nat.zero_lt_two
      · split_ifs <;> simp
    rw [List.flatMap_cons, List.length_append, List.length_cons]
    omega

/-- A string is read back. -/
theorem parseString_printString (s : String) (cs : List Char) :
    parseString (s.toList.flatMap printChar ++ '"' :: cs) = some (s, cs) := by
  have hlength : s.toList.length < (s.toList.flatMap printChar ++ '"' :: cs).length := by
    have := length_le_flatMap_printChar s.toList
    rw [List.length_append, List.length_cons]
    omega
  rw [parseString, parseChars_flatMap _ hlength]
  simp

/-- What may follow a document: nothing, or what separates or closes. -/
def Delimited (cs : List Char) : Prop := ∀ c ∈ cs.head?, c = ',' ∨ c = ']' ∨ c = '\x7d'

/-- The digits of a number end where the number does. -/
theorem Delimited.takeWhile {ds cs : List Char} (hcs : Delimited cs)
    (hds : ∀ d ∈ ds, d.isDigit = true) : (ds ++ cs).takeWhile Char.isDigit = ds ∧
      (ds ++ cs).dropWhile Char.isDigit = cs := by
  rw [List.takeWhile_append_of_pos hds, List.dropWhile_append_of_pos hds]
  cases cs with
  | nil => simp
  | cons c cs =>
    have hc : c.isDigit = false := by
      rcases hcs c rfl with rfl | rfl | rfl <;> rfl
    simp [hc]

/-- A natural number is read back from its digits. -/
theorem parseInteger_toDigits (n : UInt64) :
    parseInteger false (Nat.toDigits 10 n.toNat) = some (.posInt n) := by
  simp [parseInteger, n.toNat_lt]

/-- A negative number is read back from the digits of its absolute value. -/
theorem parseInteger_neg {i : Int64} (neg : i < 0) :
    parseInteger true (Nat.toDigits 10 i.toInt.natAbs) = some (.negInt i neg) := by
  have hneg : i.toInt < 0 := Int64.lt_iff_toInt_lt.1 neg
  have hle : -2 ^ 63 ≤ i.toInt := i.le_toInt
  have habs : -(i.toInt.natAbs : ℤ) = i.toInt := by omega
  have hpos : 0 < i.toInt.natAbs := by omega
  have hbound : i.toInt.natAbs ≤ 2 ^ 63 := by omega
  rw [parseInteger, Nat.ofDigitChars_ten_toDigits, if_neg (not_not.2 rfl), if_pos rfl,
    if_pos (by simpa [hpos] using hbound), habs, Int64.ofInt_toInt, Number.fromI64_of_neg neg]

theorem exists_toDigits (n : ℕ) : ∃ d ds, Nat.toDigits 10 n = d :: ds ∧ d.isDigit = true := by
  obtain ⟨d, ds, h⟩ := List.exists_cons_of_ne_nil (Nat.toDigits_ne_nil (n := n) (b := 10))
  exact ⟨d, ds, h, Nat.isDigit_of_mem_toDigits (b := 10) (n := n) (by decide) (by decide)
    (h ▸ List.mem_cons_self)⟩

/-- An integer is read back, whatever the delimiter that follows it. -/
theorem parseNumber_printNumber (formatFloat : UInt64 → List Char) {n : Number} (hn : n.IsInteger)
    {cs : List Char} (hcs : Delimited cs) :
    parseNumber (printNumber formatFloat n ++ cs) = some (n, cs) := by
  have hrest : cs.head? ∉ [some '.', some 'e', some 'E'] := by
    cases cs with
    | nil => decide
    | cons c cs =>
      rcases hcs c rfl with rfl | rfl | rfl <;> simp
  cases n with
  | posInt n =>
    have hdigits : ∀ c ∈ Nat.toDigits 10 n.toNat, c.isDigit = true :=
      fun c => Nat.isDigit_of_mem_toDigits (by decide) (by decide)
    obtain ⟨htake, hdrop⟩ := hcs.takeWhile hdigits
    have hsign : (Nat.toDigits 10 n.toNat ++ cs).head? ≠ some '-' := by
      obtain ⟨d, ds, h, hd⟩ := exists_toDigits n.toNat
      rw [h, List.cons_append, List.head?_cons]
      rintro ⟨⟩
      exact absurd hd (by decide)
    simp only [parseNumber, printNumber, hsign, if_false, htake, hdrop, hrest, decide_false]
    rw [parseInteger_toDigits, Option.map_some]
  | negInt i neg =>
    have hdigits : ∀ c ∈ Nat.toDigits 10 i.toInt.natAbs, c.isDigit = true :=
      fun c => Nat.isDigit_of_mem_toDigits (by decide) (by decide)
    obtain ⟨htake, hdrop⟩ := hcs.takeWhile hdigits
    simp only [parseNumber, printNumber, List.cons_append, List.head?_cons, if_true, List.tail_cons,
      htake, hdrop, hrest, if_false, decide_true]
    rw [parseInteger_neg neg, Option.map_some]
  | float bits finite => exact hn.elim

theorem skipBlank_of_not_blank {c : Char} (hc : isBlank c = false) (cs : List Char) :
    skipBlank (c :: cs) = c :: cs := by
  simp [skipBlank, hc]

section Items

variable {α : Type} {parse : List Char → Option (α × List Char)} {print : α → List Char}
  {good : α → Prop} [DecidablePred good] {close : Char}

/-- Items are read back if all of them are good, given that each of them is. -/
theorem parseItems_separate (hclose : close = ']' ∨ close = '\x7d') {x : α} {xs : List α}
    (hstart : ∀ y ∈ x :: xs, ∃ c cs, print y = c :: cs ∧ isBlank c = false)
    (hparse : ∀ y ∈ x :: xs, ∀ cs, Delimited cs →
      parse (print y ++ cs) = if good y then some (y, cs) else none)
    {n : ℕ} (hn : xs.length < n) (cs : List Char) :
    parseItems parse close n (separate ((x :: xs).map print) ++ close :: cs) =
      if ∀ y ∈ x :: xs, good y then some (x :: xs, cs) else none := by
  have hdelimited : Delimited (close :: cs) := by
    rintro c ⟨⟩
    exact .inr hclose
  have hblank : isBlank close = false := by
    rcases hclose with rfl | rfl <;> rfl
  have hcomma : ',' ≠ close := by
    rcases hclose with rfl | rfl <;> decide
  obtain ⟨n, rfl⟩ := Nat.exists_eq_succ_of_ne_zero (Nat.ne_zero_of_lt hn)
  induction xs generalizing x n with
  | nil =>
    obtain ⟨c, ds, hc, hc'⟩ := hstart x List.mem_cons_self
    have hskip : skipBlank (print x ++ close :: cs) = print x ++ close :: cs := by
      rw [hc, List.cons_append, skipBlank_of_not_blank hc']
    rw [List.map_singleton, separate, parseItems, hskip, hparse x List.mem_cons_self _ hdelimited]
    by_cases hx : good x <;> simp [hx, skipBlank_of_not_blank hblank]
  | cons y ys ih =>
    obtain ⟨c, ds, hc, hc'⟩ := hstart x List.mem_cons_self
    have hskip : ∀ cs, skipBlank (print x ++ cs) = print x ++ cs := fun cs => by
      rw [hc, List.cons_append, skipBlank_of_not_blank hc']
    have hrest := ih (fun z hz => hstart z (List.mem_cons_of_mem x hz))
      (fun z hz => hparse z (List.mem_cons_of_mem x hz))
    obtain ⟨n, rfl⟩ := Nat.exists_eq_succ_of_ne_zero
      (Nat.ne_zero_of_lt (Nat.lt_of_succ_lt_succ hn))
    -- The item, the comma, and the items that follow.
    rw [List.map_cons, List.map_cons, separate, ← List.map_cons, List.append_assoc,
      List.cons_append, parseItems, hskip, hparse x List.mem_cons_self _ (by simp [Delimited])]
    by_cases hx : good x
    · simp only [Option.bind_eq_bind, Option.bind_some,
        skipBlank_of_not_blank (show isBlank ',' = false from rfl), if_neg hcomma, if_true,
        hrest n (Nat.lt_of_succ_lt_succ hn), List.forall_mem_cons (a := x), hx, true_and]
      split_ifs <;> rfl
    · simp [hx]

/-- A separated list is longer than it has items, so that its length is fuel enough. -/
theorem length_lt_separate (x : List Char) (xs : List (List Char)) (c : Char) (cs : List Char) :
    xs.length < (separate (x :: xs) ++ c :: cs).length := by
  induction xs generalizing x with
  | nil => simp
  | cons y ys ih =>
    have := ih y
    simp only [separate, List.length_append, List.length_cons] at this ⊢
    omega

/-- A separated list is read back if all of its items are, and rejected if one of them
    is. -/
theorem parseMany_separate (hclose : close = ']' ∨ close = '\x7d') {xs : List α}
    (hstart : ∀ x ∈ xs, ∃ c cs, print x = c :: cs ∧ isBlank c = false ∧ c ≠ close)
    (hparse : ∀ x ∈ xs, ∀ cs, Delimited cs →
      parse (print x ++ cs) = if good x then some (x, cs) else none) (cs : List Char) :
    parseMany parse close (separate (xs.map print) ++ close :: cs) =
      if ∀ x ∈ xs, good x then some (xs, cs) else none := by
  have hblank : isBlank close = false := by
    rcases hclose with rfl | rfl <;> rfl
  cases xs with
  | nil => simp [parseMany, separate, skipBlank_of_not_blank hblank]
  | cons x xs =>
    obtain ⟨c, ds, hc, hc', hne⟩ := hstart x List.mem_cons_self
    have hhead : ∃ ds', separate ((x :: xs).map print) ++ close :: cs = c :: ds' := by
      cases xs <;> simp [separate, hc]
    obtain ⟨ds', hhead⟩ := hhead
    -- The first item does not start with the closing bracket.
    have hopen :
        (skipBlank (separate ((x :: xs).map print) ++ close :: cs)).head? ≠ some close := by
      rw [hhead, skipBlank_of_not_blank hc']
      simpa using hne
    rw [parseMany, if_neg hopen]
    refine parseItems_separate hclose (fun y hy => ?_) hparse ?_ cs
    · obtain ⟨c, ds, hc, hc', -⟩ := hstart y hy
      exact ⟨c, ds, hc, hc'⟩
    · have := length_lt_separate (print x) (xs.map print) close cs
      rwa [List.length_map] at this

/-- A member is read back if its value is. -/
theorem parseMember_printMember {k : String} {x : α} {ds cs : List Char}
    (hstart : ∃ c cs, ds = c :: cs ∧ isBlank c = false) {P : Prop} [Decidable P]
    (hparse : parse (ds ++ cs) = if P then some (x, cs) else none) :
    parseMember parse (printMember (k, ds) ++ cs) = if P then some ((k, x), cs) else none := by
  obtain ⟨c, ds', rfl, hblank⟩ := hstart
  have hcolon := skipBlank_of_not_blank (show isBlank ':' = false from rfl) (c :: (ds' ++ cs))
  have hskip := skipBlank_of_not_blank hblank (ds' ++ cs)
  rw [List.cons_append] at hparse
  simp only [printMember, printString, List.cons_append, List.append_assoc, List.nil_append,
    parseMember, parseString_printString, Option.bind_eq_bind, Option.bind_some, hcolon, hskip,
    hparse]
  split_ifs <;> rfl

end Items

section Document

variable (formatFloat : UInt64 → List Char)

/-- No document starts with a blank or a closing bracket. -/
theorem exists_print {j : Json} (hj : j.IntegerOnly) :
    ∃ c cs, print formatFloat j = c :: cs ∧ isBlank c = false ∧ c ≠ ']' := by
  cases hj with
  | null => exact ⟨'n', _, rfl, rfl, by decide⟩
  | bool b => cases b <;> exact ⟨_, _, rfl, rfl, by decide⟩
  | @number n hn =>
    cases n with
    | posInt n =>
      obtain ⟨d, ds, h, hd⟩ := exists_toDigits n.toNat
      refine ⟨d, ds, h, ?_, ?_⟩
      · rw [isBlank]
        simp only [Bool.or_eq_false_iff, decide_eq_false_iff_not]
        refine ⟨⟨⟨?_, ?_⟩, ?_⟩, ?_⟩ <;>
          · rintro rfl
            exact absurd hd (by decide)
      · rintro rfl
        exact absurd hd (by decide)
    | negInt i neg => exact ⟨'-', _, rfl, rfl, by decide⟩
    | float bits finite => exact hn.elim
  | string s => exact ⟨'"', _, rfl, rfl, by decide⟩
  | array _ => exact ⟨'[', _, by rw [print, Json.fold_array]; rfl, rfl, by decide⟩
  | object _ => exact ⟨'\x7b', _, by rw [print, Json.fold_object]; rfl, rfl, by decide⟩

/-- Integers take no level: they are read back even when none is left. -/
theorem parseWith_number (inside : Option (List Char → Option (Json × List Char))) {n : Number}
    (hn : n.IsInteger) {cs : List Char} (hcs : Delimited cs) :
    parseWith inside (printNumber formatFloat n ++ cs) = some (.number n, cs) := by
  have hnumber := parseNumber_printNumber formatFloat hn hcs
  have hstart : ∃ c ds, printNumber formatFloat n ++ cs = c :: ds ∧
      (c.isDigit = true ∨ c = '-') := by
    cases n with
    | posInt n =>
      obtain ⟨d, ds, h, hd⟩ := exists_toDigits n.toNat
      exact ⟨d, ds ++ cs, by rw [printNumber, h, List.cons_append], .inl hd⟩
    | negInt i neg => exact ⟨'-', _, rfl, .inr rfl⟩
    | float bits finite => exact hn.elim
  obtain ⟨c, ds, h, hc⟩ := hstart
  rw [h] at hnumber ⊢
  -- Neither a digit nor a sign starts any other document.
  have hfirst : ∀ c' : Char, c'.isDigit = false → c' ≠ '-' → c ≠ c' := by
    rintro c' hdigit hsign rfl
    rcases hc with hc | hc
    exacts [Bool.false_ne_true (hdigit.symm.trans hc), hsign hc]
  rw [parseWith.eq_def]
  split
  case h_7 => rw [hnumber, Option.map_some]
  all_goals
    rename_i heq
    exact absurd (List.cons.inj heq).1 (hfirst _ rfl (by decide))

/-- With or without levels left, one document is read by `parseWith`. -/
theorem exists_parseWith (n : ℕ) : ∃ inside, parseUpTo n = parseWith inside := by
  cases n <;> exact ⟨_, rfl⟩

/-- What is written is read back, if it has at most `n` levels. -/
theorem parseUpTo_print {j : Json} (hj : j.IntegerOnly) (n : ℕ) {cs : List Char}
    (hcs : Delimited cs) :
    parseUpTo n (print formatFloat j ++ cs) = if j.depth ≤ n then some (j, cs) else none := by
  induction hj generalizing n cs with
  | null =>
    obtain ⟨inside, h⟩ := exists_parseWith n
    simp [h, print, Json.fold, parseWith, parseLiteral, List.isPrefixOf]
  | bool b =>
    obtain ⟨inside, h⟩ := exists_parseWith n
    cases b <;> simp [h, print, Json.fold, parseWith, parseLiteral, List.isPrefixOf]
  | number hn =>
    obtain ⟨inside, h⟩ := exists_parseWith n
    simp [h, print, Json.fold, parseWith_number formatFloat inside hn hcs]
  | string s =>
    obtain ⟨inside, h⟩ := exists_parseWith n
    simp [h, print, Json.fold, printString, parseWith, parseString_printString]
  | @array xs hxs ih =>
    have hprint : print formatFloat (.array xs) ++ cs =
        '[' :: (separate (xs.map (print formatFloat)) ++ ']' :: cs) := by
      simp [print, Json.fold_array]
    rw [hprint]
    -- An array spends a level, of which there may be none left.
    cases n with
    | zero => simp [parseUpTo, parseWith, Json.depth_array]
    | succ n =>
      simp only [parseUpTo, parseWith, Option.bind_some, Json.depth_array_le]
      rw [parseMany_separate (.inl rfl) (fun x hx => exists_print formatFloat (hxs x hx))
        fun x hx cs hcs => ih x hx n hcs]
      split_ifs <;> rfl
  | @object ms hms ih =>
    have hprint : print formatFloat (.object ms) ++ cs =
        '\x7b' :: (separate (ms.map fun m => printMember (m.1, print formatFloat m.2)) ++
          '\x7d' :: cs) := by
      simp [print, Json.fold_object, Map.mapValues, Function.comp_def]
    rw [hprint]
    cases n with
    | zero => simp [parseUpTo, parseWith, Json.depth_object]
    | succ n =>
      simp only [parseUpTo, parseWith, Option.bind_some, Json.depth_object_le]
      have hmember : ∀ m ∈ ms, ∀ cs, Delimited cs → parseMember (parseUpTo n)
          (printMember (m.1, print formatFloat m.2) ++ cs) =
            if m.2.depth ≤ n then some (m, cs) else none := by
        intro m hm cs hcs
        obtain ⟨c, ds, hc, hblank, -⟩ := exists_print formatFloat (hms m hm)
        exact parseMember_printMember ⟨c, ds, hc, hblank⟩ (ih m hm n hcs)
      have hstart : ∀ m ∈ ms, ∃ c cs, printMember (m.1, print formatFloat m.2) = c :: cs ∧
          isBlank c = false ∧ c ≠ '\x7d' :=
        fun m _ => ⟨'"', _, rfl, rfl, by decide⟩
      rw [parseMany_separate (.inr rfl) hstart hmember]
      split_ifs <;> rfl

end Document

end Text

/-- Documents written without blanks, and read by recursive descent. -/
def compact (formatFloat : UInt64 → List Char) : TextFormat where
  print j := String.ofList (Text.print formatFloat j)
  parse t := Text.parse t.toList
  parse_print j hj := by
    have hread := Text.parseUpTo_print formatFloat hj recursionLimit
      (show Text.Delimited [] from nofun)
    obtain ⟨c, cs, hc, hblank, -⟩ := Text.exists_print formatFloat hj
    have hskip : Text.skipBlank (Text.print formatFloat j) = Text.print formatFloat j := by
      rw [hc, Text.skipBlank_of_not_blank hblank]
    rw [List.append_nil] at hread
    rw [String.toList_ofList, Text.parse, hskip, hread]
    split_ifs <;> rfl

end Serde
