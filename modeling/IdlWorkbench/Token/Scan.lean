import IdlWorkbench.Token.Basic

/-!
# Scanning

`tokenize` cuts a text into tokens. At each place the longest stretch that matches a rule is taken, and
a keyword wins over an identifier of the same length. Where no rule matches, the stretch up to the
place at which every rule broke off becomes an `error` token, of one character at least.

`munch` decides one token: it looks at the first character and what follows, and answers with the kind
and the number of further characters. `scan` runs down the text once and skips what `munch` claimed.
-/

namespace IdlWorkbench.Token

/-! ## Character classes -/

def isBlank (c : Char) : Bool := c = ' ' || c = '\t' || c = '\r' || c = '\n'

def isIdentStart (c : Char) : Bool := c.isAlpha || c = '_'

def isIdentRest (c : Char) : Bool := c.isAlphanum || c = '_'

def isHexDigit (c : Char) : Bool := c.isDigit || ('a' ≤ c && c ≤ 'f') || ('A' ≤ c && c ≤ 'F')

/-! ## One token -/

/-- Length of the longest start of `cs` whose characters all satisfy `p`. -/
def run (p : Char → Bool) (cs : List Char) : Nat := (cs.takeWhile p).length

def keyword? : List Char → Option TokenKind
  | ['p', 'a', 'c', 'k', 'a', 'g', 'e'] => some .packageKw
  | ['i', 'm', 'p', 'o', 'r', 't'] => some .importKw
  | ['t', 'y', 'p', 'e'] => some .typeKw
  | ['c', 'o', 'n', 's', 't'] => some .constKw
  | ['s', 't', 'r', 'u', 'c', 't'] => some .structKw
  | ['i', 'n', 't', 'e', 'r', 'f', 'a', 'c', 'e'] => some .interfaceKw
  | ['m', 'a', 'p'] => some .mapKw
  | ['c', 'h', 'a', 'n'] => some .chanKw
  | ['f', 'u', 'n', 'c'] => some .funcKw
  | _ => none

def punctuation? : Char → Option TokenKind
  | '{' => some .lBrace
  | '}' => some .rBrace
  | '[' => some .lBracket
  | ']' => some .rBracket
  | '(' => some .lParen
  | ')' => some .rParen
  | ';' => some .semicolon
  | ':' => some .colon
  | '.' => some .dot
  | ',' => some .comma
  | '=' => some .eq
  | '*' => some .star
  | '-' => some .minus
  | '+' => some .plus
  | _ => none

/-- Length of an exponent such as `e+10` at the start of `cs`; 0 if there is none. -/
def exponent : List Char → Nat
  | e :: s :: cs =>
    if e = 'e' || e = 'E' then
      if s = '+' || s = '-' then
        let digits := run Char.isDigit cs
        if digits = 0 then 0 else digits + 2
      else
        let digits := run Char.isDigit (s :: cs)
        if digits = 0 then 0 else digits + 1
    else 0
  | _ => 0

/-- What follows the whole part of a decimal number: a fraction, an exponent, both or nothing. -/
def fraction : List Char → Nat
  | '.' :: cs =>
    let digits := run Char.isDigit cs
    if digits = 0 then 0 else 1 + digits + exponent (cs.drop digits)
  | cs => exponent cs

def number (d : Char) (cs : List Char) : TokenKind × Nat :=
  let hex :=
    match cs with
    | x :: rest => if d = '0' && (x = 'x' || x = 'X') then run isHexDigit rest else 0
    | [] => 0
  if hex = 0 then
    let digits := run Char.isDigit cs
    let more := fraction (cs.drop digits)
    if more = 0 then (.int, digits) else (.float, digits + more)
  else (.int, hex + 1)

/-- What follows the opening quote of a string: its length, and whether the closing quote was found.
A string ends before a line break, and a backslash takes the next character with it. -/
def quoted : List Char → TokenKind × Nat
  | [] => (.error, 0)
  | c :: cs =>
    if c = '"' then (.string, 1)
    else if c = '\n' then (.error, 0)
    else if c = '\\' then
      match cs with
      | [] => (.error, 0)
      | d :: rest =>
        if d = '\n' then (.error, 0)
        else
          let (kind, n) := quoted rest
          (kind, n + 2)
    else
      let (kind, n) := quoted cs
      (kind, n + 1)

/-- Length through the first `*/`, if there is one. -/
def commentClose? : List Char → Option Nat
  | '*' :: '/' :: _ => some 2
  | _ :: cs => (commentClose? cs).map (· + 1)
  | [] => none

/-- Kind of the token that starts with `c`, and how many of the characters `cs` belong to it. -/
def munch (c : Char) (cs : List Char) : TokenKind × Nat :=
  if isBlank c then (.whitespace, run isBlank cs)
  else if isIdentStart c then
    let n := run isIdentRest cs
    ((keyword? (c :: cs.take n)).getD .ident, n)
  else if c.isDigit then number c cs
  else if c = '"' then quoted cs
  else if c = '`' then
    let n := run (· ≠ '`') cs
    if n < cs.length then (.rawString, n + 1) else (.error, n)
  else if c = '/' then
    match cs with
    | '/' :: rest => (.lineComment, 1 + run (· ≠ '\n') rest)
    | '*' :: rest =>
      match commentClose? rest with
      | some n => (.blockComment, 1 + n)
      | none => (.error, cs.length)
    | _ => (.error, 0)
  else
    match punctuation? c with
    | some kind => (kind, 0)
    | none => (.error, 0)

/-! ## A whole text -/

/-- Tokens of the text behind the next `skip` characters, which belong to a token found already. -/
def scan (offset : Nat) : (skip : Nat) → List Char → List Token
  | _, [] => []
  | skip + 1, _ :: cs => scan offset skip cs
  | 0, c :: cs =>
    let (kind, n) := munch c cs
    let lexeme := c :: cs.take n
    ⟨kind, String.ofList lexeme, offset⟩ :: scan (offset + Text.bytes lexeme) n cs

def tokenize (text : String) : List Token := scan 0 0 text.toList

/-- The tokens of a text that are neither blank nor comment. -/
def significant (tokens : List Token) : List Token := tokens.filter (!·.isTrivia)

/-- The name in a text's package clause: `package` and an identifier must be the first two significant
tokens. -/
def packageClauseName (text : String) : Option String :=
  match significant (tokenize text) with
  | keyword :: name :: _ =>
    if keyword.kind = .packageKw ∧ name.kind = .ident then some name.text else none
  | _ => none

end IdlWorkbench.Token
