import SignReview.Json.Literal

/-!
# Lexemes

The smallest parts of a JSON text.  Blanks are lexemes too, so that the lexemes of a text, written
one after the other, are the text.  Where a text is malformed, the last lexeme is all that is left
of it.

* `Lexeme.text`: the octets of a lexeme.
* `Lexeme.scan`: an automaton that reads one octet at a time.
* `lexemes`: the lexemes of a text; `flatMap_text_lexemes`: together they are the text.
-/

namespace SignReview.Json

inductive Container
  | object
  | array
  deriving DecidableEq, Repr

inductive Lexeme
  /-- A space, tab, line feed or carriage return. -/
  | blank (c : UInt8)
  | opening (container : Container)
  | closing (container : Container)
  | colon
  | comma
  /-- What stands between two quotes, with its escapes as written. -/
  | string (contents : Bytes)
  /-- A word or number. -/
  | literal (text : Bytes)
  /-- A string whose closing quote is missing at the end of the text. -/
  | unclosed (contents : Bytes)
  /-- All that is left where the text is malformed. -/
  | malformed (rest : Bytes)
  deriving DecidableEq, Repr

namespace Lexeme

def text : Lexeme → Bytes
  | .blank c => [c]
  | .opening .object => [0x7b]
  | .opening .array => [0x5b]
  | .closing .object => [0x7d]
  | .closing .array => [0x5d]
  | .colon => [0x3a]
  | .comma => [0x2c]
  | .string contents => 0x22 :: contents ++ [0x22]
  | .literal text => text
  | .unclosed contents => 0x22 :: contents
  | .malformed rest => rest

def ofByte? (c : UInt8) : Option Lexeme :=
  match c with
  | 0x20 => some (.blank 0x20)
  | 0x09 => some (.blank 0x09)
  | 0x0a => some (.blank 0x0a)
  | 0x0d => some (.blank 0x0d)
  | 0x7b => some (.opening .object)
  | 0x5b => some (.opening .array)
  | 0x7d => some (.closing .object)
  | 0x5d => some (.closing .array)
  | 0x3a => some .colon
  | 0x2c => some .comma
  | _ => none

/-- A literal reaches up to a blank, a comma or a closing bracket. -/
def endsLiteral : Lexeme → Bool
  | .blank _ | .comma | .closing _ => true
  | _ => false

/-- May a literal start with this octet?  A minus sign, a digit, or the first letter of a word. -/
def startsLiteral (c : UInt8) : Bool :=
  c == 0x2d || Bytes.isDigit c || c == 0x74 || c == 0x66 || c == 0x6e

/-- Where in a string the automaton is. -/
inductive Inside
  /-- Between characters. -/
  | plain
  /-- Behind a backslash. -/
  | escape
  /-- In front of the last `left + 1` hexadecimal digits of an escape. -/
  | hex (left : Nat)
  deriving DecidableEq, Repr

/-- May this octet stand alone behind a backslash?  A quote, backslash or slash, or one of the
letters b, f, n, r and t. -/
def isEscape (c : UInt8) : Bool :=
  c == 0x22 || c == 0x5c || c == 0x2f || c == 0x62 || c == 0x66 || c == 0x6e || c == 0x72 ||
    c == 0x74

/-- Where the automaton is after one more octet, the closing quote apart. -/
def Inside.next? : Inside → UInt8 → Option Inside
  | .plain, c => some (if c = 0x5c then .escape else .plain)
  | .escape, c => if isEscape c then some .plain else if c = 0x75 then some (.hex 3) else none
  | .hex left, c =>
    if Bytes.isHexDigit c then
      match left with
      | 0 => some .plain
      | left + 1 => some (.hex left)
    else
      none

/-- What the automaton is reading; what it has read of it stands in reverse. -/
inductive Mode
  | between
  | quoted (inside : Inside) (read : Bytes)
  | word (read : Bytes)

def scan : Mode → Bytes → List Lexeme
  | .between, [] => []
  | .between, c :: rest =>
    if c = 0x22 then
      scan (.quoted .plain []) rest
    else if startsLiteral c then
      scan (.word [c]) rest
    else
      match ofByte? c with
      | some lexeme => lexeme :: scan .between rest
      | none => [.malformed (c :: rest)]
  | .quoted _ read, [] => [.unclosed read.reverse]
  | .quoted inside read, c :: rest =>
    if inside = .plain ∧ c = 0x22 then
      .string read.reverse :: scan .between rest
    else
      match inside.next? c with
      | some next => scan (.quoted next (c :: read)) rest
      | none => [.malformed (0x22 :: read.reverse ++ c :: rest)]
  | .word read, [] =>
    if Literal.isLiteral read.reverse then
      [.literal read.reverse]
    else
      [.malformed read.reverse]
  | .word read, c :: rest =>
    match (ofByte? c).filter endsLiteral with
    | none => scan (.word (c :: read)) rest
    | some lexeme =>
      if Literal.isLiteral read.reverse then
        .literal read.reverse :: lexeme :: scan .between rest
      else
        [.malformed (read.reverse ++ c :: rest)]

theorem text_of_ofByte? {c : UInt8} {lexeme : Lexeme} (h : ofByte? c = some lexeme) :
    lexeme.text = [c] := by
  unfold ofByte? at h
  split at h <;> simp_all [text] <;> subst h <;> rfl

/-- What the automaton has read of the lexeme that it is reading. -/
def Mode.text : Mode → Bytes
  | .between => []
  | .quoted _ read => 0x22 :: read.reverse
  | .word read => read.reverse

theorem flatMap_text_scan (mode : Mode) (rest : Bytes) :
    (scan mode rest).flatMap text = mode.text ++ rest := by
  fun_induction scan mode rest with
  | case4 c rest _ _ lexeme hByte ih => simp [text_of_ofByte? hByte, ih, Mode.text]
  | case13 read c rest lexeme hByte hLiteral ih =>
    have hText := text_of_ofByte? (Option.filter_eq_some_iff.mp hByte).1
    simp [hText, ih, Mode.text, text.eq_9]
  | _ => simp_all [Mode.text, text]

end Lexeme

def lexemes (text : Bytes) : List Lexeme := Lexeme.scan .between text

/-- Nothing of a text is lost in its lexemes. -/
theorem flatMap_text_lexemes (text : Bytes) : (lexemes text).flatMap Lexeme.text = text := by
  simp [lexemes, Lexeme.flatMap_text_scan, Lexeme.Mode.text]

end SignReview.Json
