/-! TOML text: strings in their four written forms, keys, blanks and comments. -/
namespace RawPcm.Toml

def isBlank (c : Char) : Bool := c == ' ' || c == '\t'

/-- Whether a character may stand in a comment or, quotes and escapes apart, in a string. -/
def isText (c : Char) : Bool := c == '\t' || (' ' ≤ c && c ≤ '~') || '\x7f' < c

def isBareKey (c : Char) : Bool := c.isAlphanum || c == '-' || c == '_'

def skipBlanks (cs : List Char) : List Char := cs.dropWhile isBlank

def skipComment : List Char → List Char
  | '#' :: cs => cs.dropWhile isText
  | cs => cs

def lineEnd? : List Char → Option (List Char)
  | [] => some []
  | '\n' :: cs => some cs
  | '\r' :: '\n' :: cs => some cs
  | _ => none

def lineTail? (cs : List Char) : Option (List Char) :=
  lineEnd? (skipComment (skipBlanks cs))

/-- Skips blanks, comments and ends of lines. Stands still at a comment that is not ended as it
should be. -/
def skipLines : (fuel : Nat) → List Char → List Char
  | 0, cs => cs
  | fuel + 1, cs =>
    match cs with
    | '#' :: _ =>
      match skipComment cs with
      | '\n' :: cs => skipLines fuel cs
      | '\r' :: '\n' :: cs => skipLines fuel cs
      | _ => cs
    | '\n' :: cs => skipLines fuel cs
    | '\r' :: '\n' :: cs => skipLines fuel cs
    | c :: rest => if isBlank c then skipLines fuel rest else cs
    | [] => []

def hexValue? (c : Char) : Option Nat :=
  if '0' ≤ c ∧ c ≤ '9' then some (c.toNat - '0'.toNat)
  else if 'a' ≤ c ∧ c ≤ 'f' then some (c.toNat - 'a'.toNat + 10)
  else if 'A' ≤ c ∧ c ≤ 'F' then some (c.toNat - 'A'.toNat + 10)
  else none

def hexChar? (ds : List Char) : Option Char := do
  let n ← ds.foldlM (fun n d => (hexValue? d).map (16 * n + ·)) 0
  if n.isValidChar then some (Char.ofNat n) else none

def escape? : Char → Option Char
  | 'b' => some '\x08'
  | 't' => some '\t'
  | 'n' => some '\n'
  | 'f' => some '\x0c'
  | 'r' => some '\r'
  | '"' => some '"'
  | '\\' => some '\\'
  | _ => none

def push : Option Char → Option (List Char × List Char) → Option (List Char × List Char)
  | some c, some (cs, rest) => some (c :: cs, rest)
  | _, _ => none

def basic : List Char → Option (List Char × List Char)
  | [] => none
  | '"' :: cs => some ([], cs)
  | '\\' :: 'u' :: a :: b :: c :: d :: cs => push (hexChar? [a, b, c, d]) (basic cs)
  | '\\' :: 'U' :: a :: b :: c :: d :: e :: f :: g :: h :: cs =>
    push (hexChar? [a, b, c, d, e, f, g, h]) (basic cs)
  | '\\' :: c :: cs => push (escape? c) (basic cs)
  | c :: cs => if isText c then push (some c) (basic cs) else none

def literal : List Char → Option (List Char × List Char)
  | [] => none
  | '\'' :: cs => some ([], cs)
  | c :: cs => if isText c then push (some c) (literal cs) else none

/-- Up to two quotes may stand in front of the three that close a string. -/
def closing (q : Char) (cs : List Char) : Option (List Char × List Char) :=
  if [q, q, q, q, q].isPrefixOf cs then some ([q, q], cs.drop 5)
  else if [q, q, q, q].isPrefixOf cs then some ([q], cs.drop 4)
  else if [q, q, q].isPrefixOf cs then some ([], cs.drop 3)
  else none

/-- A backslash at the end of a line joins it to the next text, blanks and ends of lines in between
left out. -/
def joins (cs : List Char) : Bool :=
  (lineEnd? (skipBlanks cs)).isSome && !(skipBlanks cs).isEmpty

/-- The inside of a string over several lines, with escapes. While `joining`, blanks and ends of
lines are left out. -/
def basicLines : (joining : Bool) → List Char → Option (List Char × List Char)
  | _, [] => none
  | true, '\r' :: '\n' :: cs => basicLines true cs
  | true, '\n' :: cs => basicLines true cs
  | false, '\r' :: '\n' :: cs => push (some '\n') (basicLines false cs)
  | false, '\n' :: cs => push (some '\n') (basicLines false cs)
  | _, '"' :: cs =>
    match closing '"' ('"' :: cs) with
    | some r => some r
    | none => push (some '"') (basicLines false cs)
  | _, '\\' :: 'u' :: a :: b :: c :: d :: cs => push (hexChar? [a, b, c, d]) (basicLines false cs)
  | _, '\\' :: 'U' :: a :: b :: c :: d :: e :: f :: g :: h :: cs =>
    push (hexChar? [a, b, c, d, e, f, g, h]) (basicLines false cs)
  | _, '\\' :: c :: cs =>
    if joins (c :: cs) then basicLines true (c :: cs) else push (escape? c) (basicLines false cs)
  | joining, c :: cs =>
    if joining && isBlank c then basicLines true cs
    else if isText c then push (some c) (basicLines false cs)
    else none

def literalLines : List Char → Option (List Char × List Char)
  | [] => none
  | '\r' :: '\n' :: cs => push (some '\n') (literalLines cs)
  | '\n' :: cs => push (some '\n') (literalLines cs)
  | '\'' :: cs =>
    match closing '\'' ('\'' :: cs) with
    | some r => some r
    | none => push (some '\'') (literalLines cs)
  | c :: cs => if isText c then push (some c) (literalLines cs) else none

def skipFirstLineEnd : List Char → List Char
  | '\n' :: cs => cs
  | '\r' :: '\n' :: cs => cs
  | cs => cs

def string? : List Char → Option (List Char × List Char)
  | '"' :: '"' :: '"' :: cs => basicLines false (skipFirstLineEnd cs)
  | '"' :: cs => basic cs
  | '\'' :: '\'' :: '\'' :: cs => literalLines (skipFirstLineEnd cs)
  | '\'' :: cs => literal cs
  | _ => none

def simpleKey? (cs : List Char) : Option (String × List Char) :=
  match cs with
  | '"' :: rest => (basic rest).map fun (k, rest) => (String.ofList k, rest)
  | '\'' :: rest => (literal rest).map fun (k, rest) => (String.ofList k, rest)
  | _ =>
    let k := cs.takeWhile isBareKey
    if k.isEmpty then none else some (String.ofList k, cs.dropWhile isBareKey)

def keyParts : (fuel : Nat) → List Char → Option (List String × List Char)
  | 0, _ => none
  | fuel + 1, cs => do
    let (k, cs) ← simpleKey? (skipBlanks cs)
    match skipBlanks cs with
    | '.' :: cs => do
      let (ks, cs) ← keyParts fuel cs
      return (k :: ks, cs)
    | cs => return ([k], cs)

/-- The number of parts of a key, and of values inside each other, stays below this. -/
def depthLimit : Nat := 128

def key? (cs : List Char) : Option (List String × List Char) := do
  let (ks, cs) ← keyParts (cs.length + 1) cs
  if ks.length < depthLimit then return (ks, cs) else none

end RawPcm.Toml
