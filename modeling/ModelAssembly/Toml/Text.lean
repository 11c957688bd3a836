/-!
Text in TOML files: what may stand between values, the four forms of strings, and keys. Each
reader takes the characters that are left and gives back what it leaves of them.
-/

namespace ModelAssembly.Toml

-- Characters that comments and strings may hold as they are: all but control characters, tabs
-- excepted.
def isText (c : Char) : Bool := c == '\t' || (' ' ≤ c && c ≠ '\x7f')

def skipBlanks (cs : List Char) : List Char := cs.dropWhile fun c => c = ' ' || c = '\t'

-- Skips blanks, line ends and comments; `inComment` tells whether a comment has begun.
def skipGap (inComment : Bool) : List Char → List Char
  | [] => []
  | '\n' :: r => skipGap false r
  | '\r' :: '\n' :: r => skipGap false r
  | c :: r =>
    if inComment then
      if isText c then skipGap true r else c :: r
    else if c = ' ' || c = '\t' then skipGap false r
    else if c = '#' then skipGap true r
    else c :: r

-- What follows a statement on its line: blanks, perhaps a comment, and the end of the line.
def endLine (cs : List Char) : Option (List Char) :=
  let cs := match skipBlanks cs with
    | '#' :: r => r.dropWhile isText
    | cs => cs
  match cs with
  | [] => some []
  | '\n' :: r => some r
  | '\r' :: '\n' :: r => some r
  | _ => none

def hexValue (c : Char) : Option Nat :=
  if c.isDigit then some (c.toNat - '0'.toNat)
  else if 'a' ≤ c && c ≤ 'f' then some (c.toNat - 'a'.toNat + 10)
  else if 'A' ≤ c && c ≤ 'F' then some (c.toNat - 'A'.toNat + 10)
  else none

-- The character whose code point has these hexadecimal digits.
def charOfHex (digits : List Char) : Option Char := do
  let n ← digits.foldlM (fun n c => do return n * 16 + (← hexValue c)) 0
  if n.isValidChar then some (Char.ofNat n) else none

def escaped : Char → Option Char
  | 'b' => some '\x08'
  | 't' => some '\t'
  | 'n' => some '\n'
  | 'f' => some '\x0c'
  | 'r' => some '\r'
  | 'e' => some '\x1b'
  | '"' => some '"'
  | '\\' => some '\\'
  | _ => none

abbrev Reader (α : Type) := List Char → Option (α × List Char)

-- Puts a character in front of what was read.
def push (c : Char) (read : Option (List Char × List Char)) : Option (List Char × List Char) :=
  read.map fun (s, r) => (c :: s, r)

-- The rest of a string in double quotes.
def quoted : Reader (List Char)
  | [] => none
  | '"' :: r => some ([], r)
  | '\\' :: 'x' :: a :: b :: r => do push (← charOfHex [a, b]) (quoted r)
  | '\\' :: 'u' :: a :: b :: c :: d :: r => do push (← charOfHex [a, b, c, d]) (quoted r)
  | '\\' :: 'U' :: a :: b :: c :: d :: e :: f :: g :: h :: r => do
    push (← charOfHex [a, b, c, d, e, f, g, h]) (quoted r)
  | '\\' :: c :: r => do push (← escaped c) (quoted r)
  | c :: r => if c ≠ '\\' && isText c then push c (quoted r) else none

-- The rest of a string in single quotes, which has no escapes.
def literal : Reader (List Char)
  | [] => none
  | '\'' :: r => some ([], r)
  | c :: r => if isText c then push c (literal r) else none

-- Nothing but blanks is left on the line.
def atLineEnd (cs : List Char) : Bool :=
  match skipBlanks cs with
  | '\n' :: _ => true
  | '\r' :: '\n' :: _ => true
  | _ => false

-- The rest of a string in triple double quotes. After a backslash at the end of a line,
-- `skipping` drops blanks and line ends. Of up to five quotes at the end, three close the string.
def quotedLines (skipping : Bool) : Reader (List Char)
  | [] => none
  | '"' :: '"' :: '"' :: '"' :: '"' :: r => some (['"', '"'], r)
  | '"' :: '"' :: '"' :: '"' :: r => some (['"'], r)
  | '"' :: '"' :: '"' :: r => some ([], r)
  | '\\' :: 'x' :: a :: b :: r => do push (← charOfHex [a, b]) (quotedLines false r)
  | '\\' :: 'u' :: a :: b :: c :: d :: r => do
    push (← charOfHex [a, b, c, d]) (quotedLines false r)
  | '\\' :: 'U' :: a :: b :: c :: d :: e :: f :: g :: h :: r => do
    push (← charOfHex [a, b, c, d, e, f, g, h]) (quotedLines false r)
  | '\\' :: c :: r =>
    match escaped c with
    | some e => push e (quotedLines false r)
    | none => if atLineEnd (c :: r) then quotedLines true (c :: r) else none
  | '\n' :: r => if skipping then quotedLines true r else push '\n' (quotedLines false r)
  | '\r' :: '\n' :: r =>
    if skipping then quotedLines true r else push '\r' (push '\n' (quotedLines false r))
  | c :: r =>
    if skipping && (c = ' ' || c = '\t') then quotedLines true r
    else if c ≠ '\\' && isText c then push c (quotedLines false r)
    else none

-- The rest of a string in triple single quotes.
def literalLines : Reader (List Char)
  | [] => none
  | '\'' :: '\'' :: '\'' :: '\'' :: '\'' :: r => some (['\'', '\''], r)
  | '\'' :: '\'' :: '\'' :: '\'' :: r => some (['\''], r)
  | '\'' :: '\'' :: '\'' :: r => some ([], r)
  | '\n' :: r => push '\n' (literalLines r)
  | '\r' :: '\n' :: r => push '\r' (push '\n' (literalLines r))
  | c :: r => if isText c then push c (literalLines r) else none

-- A line end right after the opening quotes is not part of the string.
def dropFirstLineEnd : List Char → List Char
  | '\n' :: r => r
  | '\r' :: '\n' :: r => r
  | cs => cs

-- A string of any form, if one begins here.
def string? (cs : List Char) : Option (Option (String × List Char)) :=
  let text (read : Option (List Char × List Char)) := read.map fun (s, r) => (String.ofList s, r)
  match cs with
  | '"' :: '"' :: '"' :: r => some (text (quotedLines false (dropFirstLineEnd r)))
  | '"' :: r => some (text (quoted r))
  | '\'' :: '\'' :: '\'' :: r => some (text (literalLines (dropFirstLineEnd r)))
  | '\'' :: r => some (text (literal r))
  | _ => none

def isKeyChar (c : Char) : Bool := c.isAlphanum || c == '-' || c == '_'

-- A key: bare, or a string on one line.
def key : Reader String
  | '"' :: r => (quoted r).map fun (s, r) => (String.ofList s, r)
  | '\'' :: r => (literal r).map fun (s, r) => (String.ofList s, r)
  | cs =>
    match cs.takeWhile isKeyChar with
    | [] => none
    | k => some (String.ofList k, cs.dropWhile isKeyChar)

-- Keys with points between them, of which there are no more than `limit`.
def keyPath : Nat → Reader (List String)
  | 0, _ => none
  | limit + 1, cs => do
    let (k, r) ← key cs
    match skipBlanks r with
    | '.' :: r =>
      let (ks, r) ← keyPath limit (skipBlanks r)
      return (k :: ks, r)
    | r => return ([k], r)

end ModelAssembly.Toml
