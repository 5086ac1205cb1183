import PseudoBoolean.Toml.Scalar

/-! # Reading TOML

A document is a sequence of lines with keys and values, and of headers that name the table to which the
following lines belong. The number of names in a key is limited, and so is the number of arrays and
tables in line that are open at one place. The readers take the front of the text and give back what
follows it; those that call each other take a bound on the number of steps, for which the length of the
text is enough.
-/

namespace PseudoBoolean.Toml

/-! ## White space and line ends -/

/-- White space within a line. -/
def isBlank (c : Char) : Bool :=
  c == ' ' || c == '\t'

/-- Whether a character may stand in comments and quoted texts. -/
def isPrintable (c : Char) : Bool :=
  c == '\t' || (0x20 ≤ c.toNat && c != '\x7f')

/-- The text after white space within a line. -/
def skipBlanks (cs : List Char) : List Char :=
  cs.dropWhile isBlank

/-- What follows a line end, if there is one here. -/
def lineEnd? : List Char → Option (List Char)
  | '\n' :: rest => some rest
  | '\r' :: '\n' :: rest => some rest
  | _ => none

/-- The text after a comment, if there is one here. -/
def skipComment : List Char → List Char
  | '#' :: rest => rest.dropWhile isPrintable
  | cs => cs

/-- The text after white space, comments and line ends. Inside a comment everything up to the line end
is passed over. -/
def skipFiller? (inComment : Bool) : List Char → Option (List Char)
  | [] => some []
  | '\n' :: rest => skipFiller? false rest
  | '\r' :: '\n' :: rest => skipFiller? false rest
  | c :: rest =>
    if inComment then if isPrintable c then skipFiller? true rest else none
    else if isBlank c then skipFiller? false rest
    else if c = '#' then skipFiller? true rest
    else some (c :: rest)

/-! ## Quoted text -/

/-- The value of a hexadecimal digit. -/
def hexValue? (c : Char) : Option Nat :=
  if c.isDigit || ('a' ≤ c.toLower && c.toLower ≤ 'f') then some (digitValue c) else none

/-- The character with a number given in hexadecimal digits. -/
def scalarValue? (digits : List Char) : Option Char := do
  let n ← digits.foldlM (fun n c => do return 16 * n + (← hexValue? c)) 0
  if n < 0xD800 ∨ (0xE000 ≤ n ∧ n < 0x110000) then some (Char.ofNat n) else none

/-- The character that a letter stands for after a backslash. -/
def unescape? : Char → Option Char
  | '"' => some '"'
  | '\\' => some '\\'
  | 'b' => some '\x08'
  | 'f' => some '\x0c'
  | 'n' => some '\n'
  | 'r' => some '\r'
  | 't' => some '\t'
  | _ => none

/-- Puts a character in front of a reading. -/
def prepend (c : Char) (r : Option (List Char × List Char)) : Option (List Char × List Char) :=
  r.map fun (cs, rest) => (c :: cs, rest)

/-- A text in double quotes, after the opening one. -/
def basicText? : List Char → Option (List Char × List Char)
  | [] => none
  | '"' :: rest => some ([], rest)
  | '\\' :: 'u' :: a :: b :: c :: d :: rest =>
    (scalarValue? [a, b, c, d]).bind fun x => prepend x (basicText? rest)
  | '\\' :: 'U' :: a :: b :: c :: d :: e :: f :: g :: h :: rest =>
    (scalarValue? [a, b, c, d, e, f, g, h]).bind fun x => prepend x (basicText? rest)
  | '\\' :: e :: rest => (unescape? e).bind fun x => prepend x (basicText? rest)
  | c :: rest => if isPrintable c then prepend c (basicText? rest) else none

/-- A text in three double quotes, after the opening ones. A backslash at the end of a line takes away
the line end and the white space after it; `trimming` is set while this goes on. -/
def longBasicText? (trimming : Bool) : List Char → Option (List Char × List Char)
  | [] => none
  | '"' :: '"' :: '"' :: rest =>
    match rest with
    | '"' :: '"' :: '"' :: _ => none
    | '"' :: _ => prepend '"' (longBasicText? false ('"' :: '"' :: rest))
    | _ => some ([], rest)
  | '\\' :: 'u' :: a :: b :: c :: d :: rest =>
    (scalarValue? [a, b, c, d]).bind fun x => prepend x (longBasicText? false rest)
  | '\\' :: 'U' :: a :: b :: c :: d :: e :: f :: g :: h :: rest =>
    (scalarValue? [a, b, c, d, e, f, g, h]).bind fun x => prepend x (longBasicText? false rest)
  | '\\' :: e :: rest =>
    match unescape? e with
    | some x => prepend x (longBasicText? false rest)
    | none =>
      if (lineEnd? (skipBlanks (e :: rest))).isSome then longBasicText? true (e :: rest) else none
  | '\r' :: '\n' :: rest =>
    if trimming then longBasicText? true rest else prepend '\n' (longBasicText? false rest)
  | c :: rest =>
    if trimming && (isBlank c || c == '\n') then longBasicText? true rest
    else if isPrintable c || c == '\n' then prepend c (longBasicText? false rest)
    else none

/-- A text in single quotes, after the opening one. -/
def literalText? : List Char → Option (List Char × List Char)
  | [] => none
  | '\x27' :: rest => some ([], rest)
  | c :: rest => if isPrintable c then prepend c (literalText? rest) else none

/-- A text in three single quotes, after the opening ones. -/
def longLiteralText? : List Char → Option (List Char × List Char)
  | [] => none
  | '\x27' :: '\x27' :: '\x27' :: rest =>
    match rest with
    | '\x27' :: '\x27' :: '\x27' :: _ => none
    | '\x27' :: _ => prepend '\x27' (longLiteralText? ('\x27' :: '\x27' :: rest))
    | _ => some ([], rest)
  | '\r' :: '\n' :: rest => prepend '\n' (longLiteralText? rest)
  | c :: rest =>
    if isPrintable c || c == '\n' then prepend c (longLiteralText? rest) else none

/-- The text after a line end, if it starts with one. -/
def dropLineEnd (cs : List Char) : List Char :=
  (lineEnd? cs).getD cs

/-- A text in quotes of any kind; `many` says whether it may go over several lines. -/
def quotedText? (many : Bool) (cs : List Char) : Option (String × List Char) :=
  let text? := match cs with
    | '"' :: '"' :: '"' :: rest =>
      if many then longBasicText? false (dropLineEnd rest) else basicText? ('"' :: '"' :: rest)
    | '"' :: rest => basicText? rest
    | '\x27' :: '\x27' :: '\x27' :: rest =>
      if many then longLiteralText? (dropLineEnd rest) else literalText? ('\x27' :: '\x27' :: rest)
    | '\x27' :: rest => literalText? rest
    | _ => none
  text?.map fun (cs, rest) => (String.ofList cs, rest)

/-! ## Keys -/

/-- The characters of a key without quotes. -/
def isBarePart (c : Char) : Bool :=
  c.isAlphanum || c == '_' || c == '-'

/-- A key without points. -/
def simpleKey? (cs : List Char) : Option (String × List Char) :=
  let bare := cs.takeWhile isBarePart
  if bare = [] then quotedText? false cs
  else some (String.ofList bare, cs.drop bare.length)

/-- The greatest number of names in a key, and of arrays and tables in line that are open at one place. -/
def nestingLimit : Nat := 79

/-- A key of at most so many names with points between them: the names before the last, and the last. -/
def keyUpTo? : Nat → List Char → Option ((List String × String) × List Char)
  | 0, _ => none
  | n + 1, cs => do
    let (name, rest) ← simpleKey? (skipBlanks cs)
    match skipBlanks rest with
    | '.' :: rest =>
      let ((path, last), rest) ← keyUpTo? n rest
      return ((name :: path, last), rest)
    | rest => return (([], name), rest)

/-- A key: the names before the last, and the last. -/
def key? (cs : List Char) : Option ((List String × String) × List Char) :=
  keyUpTo? nestingLimit cs

/-! ## Values -/

/-- A value without quotes. A date may be followed by a blank and a time of day. -/
def scalarFront? (cs : List Char) : Option (Toml × List Char) :=
  let first := cs.takeWhile isScalarPart
  let rest := cs.drop first.length
  let dated := match date? first, rest with
    | some [], ' ' :: c :: more => if c.isDigit then some (c :: more) else none
    | _, _ => none
  match dated with
  | some more =>
    let second := more.takeWhile isScalarPart
    (scalar? (first ++ ' ' :: second)).map fun v => (v, more.drop second.length)
  | none => (scalar? first).map fun v => (v, rest)

mutual

/-- A value at a place where `level` arrays and tables in line are open. -/
def value? (level : Nat) : Nat → List Char → Option (Toml × List Char)
  | 0, _ => none
  | n + 1, cs =>
    match cs with
    | '[' :: rest =>
      if level < nestingLimit then do
        let (items, rest) ← items? (level + 1) n (← skipFiller? false rest)
        return (.array items, rest)
      else none
    | '\x7b' :: rest =>
      if level < nestingLimit then
        match skipBlanks rest with
        | '\x7d' :: rest => some (.table .inline [], rest)
        | rest => do
          let (members, rest) ← inlineMembers? (level + 1) n [] rest
          return (.table .inline members, rest)
      else none
    | cs =>
      if cs.head? = some '"' ∨ cs.head? = some '\x27' then
        (quotedText? true cs).map fun (s, rest) => (.string s, rest)
      else scalarFront? cs

/-- The items of an array up to its end. -/
def items? (level : Nat) : Nat → List Char → Option (List Toml × List Char)
  | 0, _ => none
  | n + 1, cs =>
    match cs with
    | ']' :: rest => some ([], rest)
    | cs => do
      let (v, rest) ← value? level n cs
      match ← skipFiller? false rest with
      | ',' :: rest =>
        let (vs, rest) ← items? level n (← skipFiller? false rest)
        return (v :: vs, rest)
      | ']' :: rest => return ([v], rest)
      | _ => none

/-- The members of a table in line up to its end, added to those so far. -/
def inlineMembers? (level : Nat) :
    Nat → List (String × Toml) → List Char → Option (List (String × Toml) × List Char)
  | 0, _, _ => none
  | n + 1, members, cs => do
    let ((path, name), rest) ← key? cs
    let rest ← expect? '=' rest
    let (v, rest) ← value? level n (skipBlanks rest)
    let members ← putDotted path name v members
    match skipBlanks rest with
    | ',' :: rest => inlineMembers? level n members rest
    | '\x7d' :: rest => return (members, rest)
    | _ => none

end

/-! ## Lines -/

/-- What has been read of a document: its members, and the table that the last header names. -/
structure Progress where
  members : List (String × Toml)
  current : List String

/-- Adds the line that starts here, up to its end. -/
def line? (n : Nat) (p : Progress) (cs : List Char) : Option (Progress × List Char) :=
  match skipBlanks cs with
  | '[' :: '[' :: rest => do
    let ((path, name), rest) ← key? rest
    let members ← alterUnder (appendTable name) path p.members
    return (⟨members, path ++ [name]⟩, ← expect? ']' (← expect? ']' rest))
  | '[' :: rest => do
    let ((path, name), rest) ← key? rest
    let members ← alterUnder (defineTable name) path p.members
    return (⟨members, path ++ [name]⟩, ← expect? ']' rest)
  | rest =>
    if rest = [] ∨ (lineEnd? rest).isSome ∨ rest.head? = some '#' then some (p, rest)
    else do
      let ((path, name), rest) ← key? rest
      let (v, rest) ← value? 0 n (skipBlanks (← expect? '=' rest))
      let members ← alterUnder (putDotted path name v) p.current p.members
      return (⟨members, p.current⟩, rest)

/-- The members of a document from here to its end. -/
def lines? : Nat → Progress → List Char → Option (List (String × Toml))
  | 0, _, _ => none
  | n + 1, p, cs => do
    let (p, rest) ← line? (n + 1) p cs
    match skipComment (skipBlanks rest) with
    | [] => return p.members
    | rest => lines? n p (← lineEnd? rest)

/-- The members of a document. -/
def parse? (text : String) : Option (List (String × Toml)) :=
  let cs := match text.toList with
    | '\ufeff' :: rest => rest
    | cs => cs
  lines? (cs.length + 2) ⟨[], []⟩ cs

end PseudoBoolean.Toml
