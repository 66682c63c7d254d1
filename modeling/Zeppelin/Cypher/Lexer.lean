import Mathlib.Algebra.GroupWithZero.Nat
import Mathlib.Data.List.Infix
import Zeppelin.Machine.Except

/-! zeppelin-embed-cypher/src/lexer.rs: A text is a list of characters and a position in it a
number of bytes. -/

namespace Zeppelin.Cypher
open List

inductive Kind where
  | ident | quotedName | integer | float | string | parameter
  | lParen | rParen | lBracket | rBracket | lBrace | rBrace
  | comma | colon | dot | dotDot | star | pipe
  | eq | ne | lt | le | gt | ge | minus | plus | slash | percent | semicolon
  deriving DecidableEq

structure Span where
  start : ℕ
  stop : ℕ
  deriving DecidableEq

structure Token where
  kind : Kind
  span : Span
  decoded : Option (List Char)
  deriving DecidableEq

inductive ErrorKind where
  | syntaxError
  | unsupported
  | invalidLiteral
  | tokenLimit
  deriving DecidableEq

structure ParseError where
  kind : ErrorKind
  span : Span
  message : String
  deriving DecidableEq

inductive Failure where
  | parse (error : ParseError)
  | fuel
  deriving DecidableEq

def byteLength (text : List Char) : ℕ := (text.map Char.utf8Size).sum

@[simp] theorem byteLength_nil : byteLength [] = 0 := rfl

@[simp] theorem byteLength_cons (c : Char) (text : List Char) :
    byteLength (c::text) = c.utf8Size+byteLength text := by
  simp only [byteLength,map_cons,sum_cons]

@[simp] theorem byteLength_append (a b : List Char) :
    byteLength (a++b) = byteLength a+byteLength b := by
  simp only [byteLength,map_append,sum_append]

theorem byteLength_pos {text : List Char} (h : text ≠ []) : 0 < byteLength text := by
  cases text with
  | nil => exact absurd rfl h
  | cons c text =>
    have := c.utf8Size_pos
    rw [byteLength_cons]
    omega

def isAsciiWhitespace (c : Char) : Bool :=
  c = ' ' || c = '\t' || c = '\n' || c = '\r' || c = '\x0c'

def isAsciiDigit (c : Char) : Bool := '0' ≤ c && c ≤ '9'

def isAsciiAlphabetic (c : Char) : Bool := ('a' ≤ c && c ≤ 'z') || ('A' ≤ c && c ≤ 'Z')

def isAscii (c : Char) : Bool := c.toNat < 128

def identStart (c : Char) : Bool := isAsciiAlphabetic c || c = '_'

/-- `char::to_digit(16)`. -/
def toHexDigit (c : Char) : Option ℕ :=
  if isAsciiDigit c then some (c.toNat - '0'.toNat)
  else if 'a' ≤ c ∧ c ≤ 'f' then some (c.toNat - 'a'.toNat+10)
  else if 'A' ≤ c ∧ c ≤ 'F' then some (c.toNat - 'A'.toNat+10)
  else none

/-- `char::from_u32`. -/
def charFromU32 (scalar : ℕ) : Option Char :=
  if h : scalar.isValidChar then some (Char.ofNatAux scalar h) else none

/-- What is left of the source from a byte position on. -/
structure Lexer where
  position : ℕ
  rest : List Char

namespace Lexer

def peek (lexer : Lexer) : Option Char := lexer.rest.head?

def peekNext (lexer : Lexer) : Option Char := lexer.rest[1]?

def starts (lexer : Lexer) (text : List Char) : Bool := text.isPrefixOf lexer.rest

def advance (lexer : Lexer) : Lexer :=
  match lexer.rest with
  | [] => lexer
  | c::rest => ⟨lexer.position+c.utf8Size,rest⟩

def error {α : Type} (lexer : Lexer) (start : ℕ) (kind : ErrorKind) (message : String) :
    Except Failure α :=
  .error (.parse ⟨kind,⟨start,lexer.position⟩,message⟩)

/-- The loops that advance while the next character is of a kind. -/
def advanceWhile (p : Char → Bool) : ℕ → List Char → Lexer
  | position,[] => ⟨position,[]⟩
  | position,c::rest =>
    if p c then advanceWhile p (position+c.utf8Size) rest else ⟨position,c::rest⟩

def skipWhile (lexer : Lexer) (p : Char → Bool) : Lexer :=
  advanceWhile p lexer.position lexer.rest

def identifier (lexer : Lexer) : Lexer :=
  lexer.skipWhile fun c => identStart c || isAsciiDigit c

def between (lexer done : Lexer) : List Char :=
  lexer.rest.take (lexer.rest.length-done.rest.length)

def fraction (lexer : Lexer) : Lexer × Bool :=
  if lexer.peek = some '.' ∧ lexer.peekNext.any isAsciiDigit then
    (lexer.advance.skipWhile isAsciiDigit,true)
  else (lexer,false)

def skipSign (lexer : Lexer) : Lexer :=
  if lexer.peek = some '-' then lexer.advance else lexer

def exponent (start : ℕ) (lexer : Lexer) (float : Bool) : Except Failure (Lexer × Bool) :=
  if lexer.peek = some 'e' ∨ lexer.peek = some 'E' then
    let lexer:=lexer.advance.skipSign
    if lexer.peek.any isAsciiDigit then .ok (lexer.skipWhile isAsciiDigit,true)
    else lexer.error start .invalidLiteral "invalid exponent"
  else .ok (lexer,float)

def octal (digits : List Char) : Bool := 1 < byteLength digits && digits.head? = some '0'

def number (lexer : Lexer) : Except Failure (Kind × Lexer) := do
  let part:=(lexer.skipWhile isAsciiDigit).fraction
  let (done,float) ← exponent lexer.position part.1 part.2
  if done.peek.any fun c => identStart c || !isAscii c then
    done.error lexer.position .unsupported "nondecimal numeric literal"
  else if !float && octal (lexer.between done) then
    done.error lexer.position .unsupported "octal numeric literal"
  else .ok (if float then .float else .integer,done)

def hex (start : ℕ) : ℕ → ℕ → Lexer → Except Failure (ℕ × Lexer)
  | 0,value,lexer => .ok (value,lexer)
  | digits+1,value,lexer =>
    match lexer.peek.bind toHexDigit with
    | none => lexer.advance.error start .invalidLiteral "invalid Unicode escape"
    | some digit => hex start digits (value*16+digit) lexer.advance

def scalarChar (start scalar : ℕ) (lexer : Lexer) : Except Failure (Char × Lexer) :=
  match charFromU32 scalar with
  | none => lexer.error start .invalidLiteral "invalid Unicode scalar"
  | some c => .ok (c,lexer)

def lowSurrogate (start : ℕ) (lexer : Lexer) : Except Failure (ℕ × Lexer) :=
  if lexer.starts ['\\','u'] then hex start 4 0 lexer.advance.advance
  else lexer.error start .invalidLiteral "missing low surrogate"

def unicode (digits start : ℕ) (lexer : Lexer) : Except Failure (Char × Lexer) := do
  let (scalar,lexer) ← hex start digits 0 lexer
  if digits = 4 ∧ 0xd800 ≤ scalar ∧ scalar ≤ 0xdbff then do
    let (low,lexer) ← lowSurrogate start lexer
    if 0xdc00 ≤ low ∧ low ≤ 0xdfff then
      scalarChar start (0x10000+(scalar-0xd800)*1024+low-0xdc00) lexer
    else lexer.error start .invalidLiteral "invalid low surrogate"
  else scalarChar start scalar lexer

def simpleEscape : Char → Option Char
  | 'n' => some '\n'
  | 'r' => some '\r'
  | 't' => some '\t'
  | 'b' => some '\x08'
  | 'f' => some '\x0c'
  | '\\' => some '\\'
  | '\'' => some '\''
  | '"' => some '"'
  | _ => none

def escape (lexer : Lexer) : Except Failure (Char × Lexer) :=
  let start:=lexer.position-1
  match lexer.peek with
  | some 'u' => unicode 4 start lexer.advance
  | some 'U' => unicode 8 start lexer.advance
  | letter =>
    match letter.bind simpleEscape with
    | some c => .ok (c,lexer.advance)
    | none => lexer.advance.error start .invalidLiteral "invalid string escape"

/-- One round of the loop of `quoted`: the next character, or none at the closing quote. -/
def quotedChar (quote : Char) (start : ℕ) (lexer : Lexer) :
    Except Failure (Option Char × Lexer) :=
  match lexer.peek with
  | none => lexer.error start .syntaxError "unterminated quoted token"
  | some c =>
    if c = quote then
      if quote = '`' ∧ lexer.advance.peek = some '`' then .ok (some c,lexer.advance.advance)
      else .ok (none,lexer.advance)
    else if c = '\\' ∧ quote ≠ '`' then do
      let (c,lexer) ← lexer.advance.escape
      .ok (some c,lexer)
    else .ok (some c,lexer.advance)

def quotedFrom (quote : Char) (start : ℕ) : ℕ → Lexer → List Char →
    Except Failure (List Char × Lexer)
  | 0,_,_ => .error .fuel
  | fuel+1,lexer,result => do
    let (next,lexer) ← quotedChar quote start lexer
    match next with
    | none => .ok (result,lexer)
    | some c =>
      if quote = '`' ∧ c = '\x00' then lexer.error start .invalidLiteral "NUL in name"
      else quotedFrom quote start fuel lexer (result++[c])

def quoted (fuel : ℕ) (quote : Char) (lexer : Lexer) : Except Failure (List Char × Lexer) :=
  quotedFrom quote lexer.position fuel lexer.advance []

/-- The lexer stands after the dollar sign, which is at `start`. -/
def parameter (fuel start : ℕ) (lexer : Lexer) : Except Failure (List Char × Lexer) :=
  if lexer.peek = some '`' then quoted fuel '`' lexer
  else if lexer.peek.any identStart then .ok (lexer.between lexer.identifier,lexer.identifier)
  else lexer.error start .unsupported "expected named parameter"

def blockComment (start : ℕ) : ℕ → List Char → Except Failure Lexer
  | position,[] => Lexer.error ⟨position,[]⟩ start .syntaxError "unterminated block comment"
  | position,c::rest =>
    if starts ⟨position,c::rest⟩ ['*','/'] then
      .ok (advance (advance ⟨position,c::rest⟩))
    else blockComment start (position+c.utf8Size) rest

def skip (lexer : Lexer) : Except Failure (Option Lexer) :=
  if lexer.peek.any isAsciiWhitespace then .ok (some lexer.advance)
  else if lexer.starts ['/','/'] then .ok (some (lexer.skipWhile fun c => c ≠ '\n'))
  else if lexer.starts ['/','*'] then
    some <$> blockComment lexer.position lexer.advance.advance.position lexer.advance.advance.rest
  else .ok none

def punctuation : Char → Option Kind
  | '(' => some .lParen
  | ')' => some .rParen
  | '[' => some .lBracket
  | ']' => some .rBracket
  | '{' => some .lBrace
  | '}' => some .rBrace
  | ',' => some .comma
  | ':' => some .colon
  | '*' => some .star
  | '|' => some .pipe
  | '=' => some .eq
  | '-' => some .minus
  | '+' => some .plus
  | '/' => some .slash
  | '%' => some .percent
  | ';' => some .semicolon
  | _ => none

def doubled (lexer : Lexer) : Option Kind :=
  if lexer.starts ['.','.'] then some .dotDot
  else if lexer.starts ['<','='] then some .le
  else if lexer.starts ['<','>'] then some .ne
  else if lexer.starts ['>','='] then some .ge
  else none

def quotedKind (quote : Char) : Kind := if quote = '`' then .quotedName else .string

/-- What the arms of the match on the next character give: a kind, a decoded text and the lexer
after it. The arms of punctuation leave their last character to their caller; here they take it
with the others. -/
def scan (fuel : ℕ) (lexer : Lexer) (c : Char) :
    Except Failure (Kind × Option (List Char) × Lexer) :=
  match punctuation c,lexer.doubled with
  | some kind,_ => .ok (kind,none,lexer.advance)
  | none,some kind => .ok (kind,none,lexer.advance.advance)
  | none,none =>
    if c = '<' then .ok (.lt,none,lexer.advance)
    else if c = '>' then .ok (.gt,none,lexer.advance)
    else if c = '`' ∨ c = '\'' ∨ c = '"' then do
      let (text,done) ← quoted fuel c lexer
      .ok (quotedKind c,some text,done)
    else if c = '$' then do
      let (text,done) ← parameter fuel lexer.position lexer.advance
      .ok (.parameter,some text,done)
    else if isAsciiDigit c || (c = '.' && lexer.peekNext.any isAsciiDigit) then do
      let (kind,done) ← lexer.number
      .ok (kind,none,done)
    else if c = '.' then .ok (.dot,none,lexer.advance)
    else if identStart c then .ok (.ident,none,lexer.identifier)
    else lexer.advance.error lexer.position .unsupported "character outside lexical profile"

end Lexer

def tokenizeFrom (limit quoteFuel : ℕ) : ℕ → Lexer → List Token → Except Failure (List Token)
  | 0,_,_ => .error .fuel
  | fuel+1,lexer,tokens =>
    match lexer.peek with
    | none => .ok tokens
    | some c => do
      let skipped ← lexer.skip
      match skipped with
      | some lexer => tokenizeFrom limit quoteFuel fuel lexer tokens
      | none => do
        let (kind,decoded,done) ← lexer.scan quoteFuel c
        let token : Token := ⟨kind,⟨lexer.position,done.position⟩,decoded⟩
        if tokens.length = limit then done.error lexer.position .tokenLimit "token limit"
        else tokenizeFrom limit quoteFuel fuel done (tokens++[token])

/-- With fuel for the loop and for the loop of each quoted token. -/
def tokenizeWith (fuel limit : ℕ) (source : List Char) : Except Failure (List Token) :=
  tokenizeFrom limit fuel fuel ⟨0,source⟩ []

def tokenize (limit : ℕ) (source : List Char) : Except Failure (List Token) :=
  tokenizeWith (source.length+1) limit source

structure Moves (lexer done : Lexer) (word : List Char) : Prop where
  rest : lexer.rest = word++done.rest
  position : done.position = lexer.position+byteLength word

namespace Moves

theorem refl (lexer : Lexer) : Moves lexer lexer [] := ⟨rfl,rfl⟩

theorem trans {a b c : Lexer} {v w : List Char} (first : Moves a b v) (next : Moves b c w) :
    Moves a c (v++w) := by
  constructor
  · rw [first.rest,next.rest,append_assoc]
  · rw [next.position,first.position,byteLength_append,Nat.add_assoc]

theorem length_lt {a b : Lexer} {w : List Char} (move : Moves a b w) (h : w ≠ []) :
    b.rest.length < a.rest.length := by
  have hlength : a.rest.length = w.length+b.rest.length := by
    rw [move.rest,length_append]
  have := length_pos_of_ne_nil h
  omega

end Moves

namespace Lexer

variable {lexer done : Lexer} {c quote : Char} {text : List Char} {p : Char → Bool}
  {start scalar fuel : ℕ}

theorem rest_of_peek (h : lexer.peek = some c) : ∃ rest,lexer.rest = c::rest := by
  cases hrest : lexer.rest with
  | nil =>
    rw [peek,hrest] at h
    cases h
  | cons d rest =>
    rw [peek,hrest] at h
    obtain rfl := Option.some.inj h
    exact ⟨rest,rfl⟩

theorem advance_moves (h : lexer.peek = some c) : Moves lexer lexer.advance [c] := by
  obtain ⟨rest,hrest⟩ := rest_of_peek h
  constructor
  · simp only [advance,hrest,singleton_append]
  · simp only [advance,hrest,byteLength_cons,byteLength_nil,Nat.add_zero]

theorem starts_cons (h : lexer.starts (c::text) = true) :
    lexer.peek = some c ∧ lexer.advance.starts text = true := by
  cases hrest : lexer.rest with
  | nil =>
    rw [starts,hrest] at h
    cases h
  | cons d rest =>
    rw [starts,hrest,isPrefixOf_cons_cons,Bool.and_eq_true,beq_iff_eq] at h
    obtain ⟨rfl,hrest'⟩ := h
    constructor
    · rw [peek,hrest,head?_cons]
    · simp only [starts,advance,hrest]
      exact hrest'

theorem starts_two {d : Char} (h : lexer.starts [c,d] = true) :
    Moves lexer lexer.advance.advance [c,d] := by
  obtain ⟨hfirst,hnext⟩ := starts_cons h
  obtain ⟨hsecond,_⟩ := starts_cons hnext
  exact (advance_moves hfirst).trans (advance_moves hsecond)

theorem advanceWhile_moves (p : Char → Bool) (rest : List Char) (position : ℕ) :
    ∃ word,Moves ⟨position,rest⟩ (advanceWhile p position rest) word ∧ (∀ c ∈ word,p c = true) ∧
      (advanceWhile p position rest).peek.any p = false := by
  induction rest generalizing position with
  | nil => exact ⟨[],Moves.refl _,by simp,rfl⟩
  | cons c rest ih =>
    by_cases hp : p c = true
    · obtain ⟨word,move,hall,hnext⟩ := ih (position+c.utf8Size)
      have hfirst : Moves ⟨position,c::rest⟩ ⟨position+c.utf8Size,rest⟩ [c] :=
        advance_moves rfl
      have hstep : advanceWhile p position (c::rest) =
          advanceWhile p (position+c.utf8Size) rest := if_pos hp
      rw [hstep]
      refine ⟨c::word,hfirst.trans move,?_,hnext⟩
      intro d hd
      rcases mem_cons.mp hd with rfl | hd
      · exact hp
      · exact hall d hd
    · have hstay : advanceWhile p position (c::rest) = ⟨position,c::rest⟩ := if_neg hp
      rw [hstay]
      exact ⟨[],Moves.refl _,by simp,by simpa [peek] using hp⟩

theorem skipWhile_moves (lexer : Lexer) (p : Char → Bool) :
    ∃ word,Moves lexer (lexer.skipWhile p) word ∧ (∀ c ∈ word,p c = true) ∧
      (lexer.skipWhile p).peek.any p = false :=
  advanceWhile_moves p lexer.rest lexer.position

theorem skipWhile_of_peek (h : lexer.peek = some c)
    (hp : p c = true) : lexer.skipWhile p = lexer.advance.skipWhile p := by
  obtain ⟨rest,hrest⟩ := rest_of_peek h
  simp only [skipWhile,advance,hrest]
  exact if_pos hp

theorem skipWhile_moves_of_peek (h : lexer.peek = some c)
    (hp : p c = true) : ∃ word,Moves lexer (lexer.skipWhile p) (c::word) := by
  obtain ⟨word,move,_⟩ := skipWhile_moves lexer.advance p
  rw [skipWhile_of_peek h hp]
  exact ⟨word,(advance_moves h).trans move⟩

theorem peek_any (h : lexer.peek.any p = true) : ∃ c,lexer.peek = some c ∧ p c = true :=
  (Option.any_eq_true p _).mp h

theorem fraction_moves (lexer : Lexer) : ∃ word,Moves lexer lexer.fraction.1 word := by
  unfold fraction
  split_ifs with h
  · obtain ⟨word,move,_⟩ := skipWhile_moves lexer.advance isAsciiDigit
    exact ⟨_,(advance_moves h.1).trans move⟩
  · exact ⟨[],Moves.refl lexer⟩

theorem skipSign_moves (lexer : Lexer) : ∃ word,Moves lexer lexer.skipSign word := by
  unfold skipSign
  split_ifs with h
  · exact ⟨_,advance_moves h⟩
  · exact ⟨[],Moves.refl lexer⟩

theorem exponent_moves {before after : Bool}
    (h : exponent start lexer before = .ok (done,after)) : ∃ word,Moves lexer done word := by
  unfold exponent at h
  dsimp only at h
  split_ifs at h with he
  · obtain ⟨rfl,_⟩ := Prod.mk.inj (Except.ok.inj h)
    have hfirst : ∃ c,lexer.peek = some c := by
      rcases he with he | he
      · exact ⟨_,he⟩
      · exact ⟨_,he⟩
    obtain ⟨c,hc⟩ := hfirst
    obtain ⟨sign,hsign⟩ := skipSign_moves lexer.advance
    obtain ⟨digits,hdigits,_⟩ := skipWhile_moves lexer.advance.skipSign isAsciiDigit
    exact ⟨_,((advance_moves hc).trans hsign).trans hdigits⟩
  · cases h
  · obtain ⟨rfl,_⟩ := Prod.mk.inj (Except.ok.inj h)
    exact ⟨[],Moves.refl lexer⟩

theorem number_moves {kind : Kind}
    (hstart : lexer.peek.any isAsciiDigit = true ∨
      lexer.peek = some '.' ∧ lexer.peekNext.any isAsciiDigit = true)
    (h : number lexer = .ok (kind,done)) : ∃ word,Moves lexer done word ∧ word ≠ [] := by
  unfold number at h
  obtain ⟨⟨read,float⟩,hread,h⟩ := bind_eq_ok h
  dsimp only at h
  have hdone : read = done := by
    split_ifs at h
    · cases h
    · cases h
    · exact (Prod.mk.inj (Except.ok.inj h)).2
    · exact (Prod.mk.inj (Except.ok.inj h)).2
  subst hdone
  obtain ⟨tail,htail⟩ := exponent_moves hread
  rcases hstart with hdigit | hdot
  · obtain ⟨c,hc,hdigit⟩ := peek_any hdigit
    obtain ⟨whole,hwhole⟩ := skipWhile_moves_of_peek hc hdigit
    obtain ⟨part,hpart⟩ := fraction_moves (lexer.skipWhile isAsciiDigit)
    refine ⟨_,(hwhole.trans hpart).trans htail,?_⟩
    simp
  · obtain ⟨rest,hrest⟩ := rest_of_peek hdot.1
    have hwhole : lexer.skipWhile isAsciiDigit = lexer := by
      rw [skipWhile,hrest]
      have : advanceWhile isAsciiDigit lexer.position ('.' :: rest) = ⟨lexer.position,'.' :: rest⟩ :=
        if_neg (by decide)
      rw [this,← hrest]
    rw [hwhole] at htail
    have hpart : lexer.fraction = (lexer.advance.skipWhile isAsciiDigit,true) := if_pos hdot
    rw [hpart] at htail
    obtain ⟨digits,hdigits,_⟩ := skipWhile_moves lexer.advance isAsciiDigit
    refine ⟨_,((advance_moves hdot.1).trans hdigits).trans htail,?_⟩
    simp

theorem hex_moves {digits value : ℕ}
    (h : hex start digits value lexer = .ok (scalar,done)) : ∃ word,Moves lexer done word := by
  induction digits generalizing value lexer with
  | zero =>
    obtain ⟨_,rfl⟩ := Prod.mk.inj (Except.ok.inj h)
    exact ⟨[],Moves.refl lexer⟩
  | succ digits ih =>
    simp only [hex] at h
    cases hdigit : lexer.peek.bind toHexDigit with
    | none =>
      rw [hdigit] at h
      cases h
    | some digit =>
      rw [hdigit] at h
      obtain ⟨c,hc,_⟩ := Option.bind_eq_some_iff.mp hdigit
      obtain ⟨word,move⟩ := ih h
      exact ⟨_,(advance_moves hc).trans move⟩

theorem scalarChar_ok (h : scalarChar start scalar lexer = .ok (c,done)) :
    charFromU32 scalar = some c ∧ lexer = done := by
  unfold scalarChar at h
  cases hc : charFromU32 scalar with
  | none =>
    rw [hc] at h
    cases h
  | some d =>
    rw [hc] at h
    obtain ⟨rfl,rfl⟩ := Prod.mk.inj (Except.ok.inj h)
    exact ⟨rfl,rfl⟩

theorem lowSurrogate_moves
    (h : lowSurrogate start lexer = .ok (scalar,done)) : ∃ word,Moves lexer done word := by
  unfold lowSurrogate at h
  split_ifs at h with hstarts
  · obtain ⟨word,move⟩ := hex_moves h
    exact ⟨_,(starts_two hstarts).trans move⟩
  · cases h

theorem unicode_moves {digits : ℕ}
    (h : unicode digits start lexer = .ok (c,done)) : ∃ word,Moves lexer done word := by
  unfold unicode at h
  obtain ⟨⟨scalar,read⟩,hread,h⟩ := bind_eq_ok h
  obtain ⟨word,move⟩ := hex_moves hread
  dsimp only at h
  split_ifs at h with hhigh
  · obtain ⟨⟨low,after⟩,hafter,h⟩ := bind_eq_ok h
    obtain ⟨more,next⟩ := lowSurrogate_moves hafter
    dsimp only at h
    split_ifs at h with hlow
    · obtain ⟨_,rfl⟩ := scalarChar_ok h
      exact ⟨_,move.trans next⟩
    · cases h
  · obtain ⟨_,rfl⟩ := scalarChar_ok h
    exact ⟨word,move⟩

theorem escape_moves (h : escape lexer = .ok (c,done)) : ∃ word,Moves lexer done word := by
  unfold escape at h
  dsimp only at h
  split at h
  · rename_i hpeek
    obtain ⟨word,move⟩ := unicode_moves h
    exact ⟨_,(advance_moves hpeek).trans move⟩
  · rename_i hpeek
    obtain ⟨word,move⟩ := unicode_moves h
    exact ⟨_,(advance_moves hpeek).trans move⟩
  · split at h
    · rename_i hsimple
      obtain ⟨_,rfl⟩ := Prod.mk.inj (Except.ok.inj h)
      obtain ⟨letter,hletter,_⟩ := Option.bind_eq_some_iff.mp hsimple
      exact ⟨_,advance_moves hletter⟩
    · cases h

theorem quotedChar_moves {next : Option Char}
    (h : quotedChar quote start lexer = .ok (next,done)) :
    ∃ word,Moves lexer done word ∧ word ≠ [] := by
  unfold quotedChar at h
  cases hpeek : lexer.peek with
  | none =>
    rw [hpeek] at h
    cases h
  | some c =>
    rw [hpeek] at h
    dsimp only at h
    have hfirst:=advance_moves hpeek
    split_ifs at h with hquote hdouble hback
    · obtain ⟨_,rfl⟩ := Prod.mk.inj (Except.ok.inj h)
      exact ⟨_,hfirst.trans (advance_moves hdouble.2),by simp⟩
    · obtain ⟨_,rfl⟩ := Prod.mk.inj (Except.ok.inj h)
      exact ⟨_,hfirst,by simp⟩
    · obtain ⟨⟨d,after⟩,hafter,h⟩ := bind_eq_ok h
      obtain ⟨_,rfl⟩ := Prod.mk.inj (Except.ok.inj h)
      obtain ⟨word,move⟩ := escape_moves hafter
      exact ⟨_,hfirst.trans move,by simp⟩
    · obtain ⟨_,rfl⟩ := Prod.mk.inj (Except.ok.inj h)
      exact ⟨_,hfirst,by simp⟩

theorem quotedFrom_moves {before : List Char}
    (h : quotedFrom quote start fuel lexer before = .ok (text,done)) :
    ∃ word,Moves lexer done word := by
  induction fuel generalizing lexer before with
  | zero => cases h
  | succ fuel ih =>
    simp only [quotedFrom] at h
    obtain ⟨⟨next,after⟩,hafter,h⟩ := bind_eq_ok h
    obtain ⟨word,move,_⟩ := quotedChar_moves hafter
    cases next with
    | none =>
      obtain ⟨_,rfl⟩ := Prod.mk.inj (Except.ok.inj h)
      exact ⟨word,move⟩
    | some c =>
      dsimp only at h
      obtain ⟨hnul,h⟩ := of_ite_error h
      obtain ⟨more,next⟩ := ih h
      exact ⟨_,move.trans next⟩

theorem quoted_moves (hpeek : lexer.peek = some c)
    (h : quoted fuel quote lexer = .ok (text,done)) : ∃ word,Moves lexer done word ∧ word ≠ [] := by
  obtain ⟨word,move⟩ := quotedFrom_moves h
  exact ⟨_,(advance_moves hpeek).trans move,by simp⟩

theorem parameter_moves
    (h : parameter fuel start lexer = .ok (text,done)) : ∃ word,Moves lexer done word := by
  unfold parameter at h
  split_ifs at h with hquote hname
  · obtain ⟨word,move,_⟩ := quoted_moves hquote h
    exact ⟨word,move⟩
  · obtain ⟨_,rfl⟩ := Prod.mk.inj (Except.ok.inj h)
    obtain ⟨word,move,_⟩ :=
      skipWhile_moves lexer fun c => identStart c || isAsciiDigit c
    exact ⟨word,move⟩
  · cases h

end Lexer

end Zeppelin.Cypher
