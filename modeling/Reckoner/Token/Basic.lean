import Reckoner.Name
import Reckoner.Position

/-!
# Tokens

A token has a kind, a datum and a span. The kinds that the scanner makes are the symbols of the
grammar; a stored token may be of any other kind, or of none.
-/

set_option autoImplicit false

namespace Reckoner

/-! ## Kinds -/

/-- The terminal symbols. -/
inductive Symbol where
  | int
  | float
  | identifier
  | keyword
  | plus
  | minus
  | times
  | divide
  | power
  | assign
  | equal
  | unequal
  | less
  | greater
  | atMost
  | atLeast
  | openParen
  | closeParen
  | endOfText
  deriving DecidableEq

namespace Symbol

def label : Symbol → String
  | .int => "INT"
  | .float => "FLOAT"
  | .identifier => "IDENTIFIER"
  | .keyword => "KEYWORD"
  | .plus => "PLUS"
  | .minus => "MINUS"
  | .times => "MUL"
  | .divide => "DIV"
  | .power => "POW"
  | .assign => "EQ"
  | .equal => "EE"
  | .unequal => "NE"
  | .less => "LT"
  | .greater => "GT"
  | .atMost => "LTE"
  | .atLeast => "GTE"
  | .openParen => "LPAREN"
  | .closeParen => "RPAREN"
  | .endOfText => "EOF"

def all : List Symbol :=
  [.int, .float, .identifier, .keyword, .plus, .minus, .times, .divide, .power, .assign, .equal,
    .unequal, .less, .greater, .atMost, .atLeast, .openParen, .closeParen, .endOfText]

def ofLabel? (s : String) : Option Symbol := all.find? (·.label == s)

theorem mem_all (k : Symbol) : k ∈ all := by cases k <;> simp [all]

theorem ofLabel?_label (k : Symbol) : ofLabel? k.label = some k := by cases k <;> rfl

theorem label_of_ofLabel? {s : String} {k : Symbol} (h : ofLabel? s = some k) : k.label = s := by
  simpa using List.find?_some h

end Symbol

/-- The symbol that a label names. -/
def Datum.symbol? : Datum → Option Symbol
  | .text s => Symbol.ofLabel? s
  | _ => none

/-- The kind of a token: a symbol, or a label that names none. -/
inductive Kind where
  | known (symbol : Symbol)
  | unknown (label : Datum) (unlisted : label.symbol? = none)
  deriving DecidableEq

namespace Kind

instance : Coe Symbol Kind := ⟨.known⟩

def label : Kind → Datum
  | .known k => .text k.label
  | .unknown label _ => label

def ofLabel (label : Datum) : Kind :=
  match h : label.symbol? with
  | some k => .known k
  | none => .unknown label h

theorem ofLabel_label (k : Kind) : ofLabel k.label = k := by
  cases k with
  | known k => cases k <;> rfl
  | unknown label unlisted =>
    simp only [Kind.label, ofLabel]
    split
    · simp_all
    · rfl

theorem label_ofLabel (label : Datum) : (ofLabel label).label = label := by
  unfold ofLabel
  split
  · next k h =>
    cases label with
    | text s => simp [Kind.label, Symbol.label_of_ofLabel? h]
    | number n => simp [Datum.symbol?] at h
    | bool b => simp [Datum.symbol?] at h
    | blank => simp [Datum.symbol?] at h
  · rfl

end Kind

/-! ## Keywords -/

inductive Keyword where
  | var
  | and
  | not
  | or
  | ifWord
  | doWord
  | elifWord
  | elseWord
  | forWord
  | upto
  | step
  | whileWord
  deriving DecidableEq

namespace Keyword

def text : Keyword → String
  | .var => "VAR"
  | .and => "AND"
  | .not => "NOT"
  | .or => "OR"
  | .ifWord => "IF"
  | .doWord => "DO"
  | .elifWord => "ELIF"
  | .elseWord => "ELSE"
  | .forWord => "FOR"
  | .upto => "UPTO"
  | .step => "STEP"
  | .whileWord => "WHILE"

def all : List Keyword :=
  [.var, .and, .not, .or, .ifWord, .doWord, .elifWord, .elseWord, .forWord, .upto, .step,
    .whileWord]

/-- The keyword that a word is, in its exact spelling. -/
def ofText? (s : String) : Option Keyword := all.find? (·.text == s)

end Keyword

/-! ## Tokens -/

/-- A token with a start has an end. -/
structure Token where
  kind : Kind
  value : Datum
  span : Span
  complete : span.completed = span
  deriving DecidableEq

theorem Span.completed_completed (s : Span) : s.completed.completed = s.completed := by
  rcases s with ⟨_ | p, _ | q⟩ <;> rfl

namespace Token

/-- The token whose span is completed to one character if only its start is given. -/
def make (kind : Kind) (value : Datum) (span : Span) : Token :=
  ⟨kind, value, span.completed, span.completed_completed⟩

def is (t : Token) (k : Symbol) : Bool := t.kind == .known k

/-- Whether a token has this kind and an equal datum. -/
def matches? (t : Token) (kind : Kind) (value : Datum) : Bool :=
  t.kind == kind && t.value.eq value

def isKeyword (t : Token) (w : Keyword) : Bool :=
  t.matches? (.known .keyword) (.text w.text)

/-- What a token calls itself as an operator: a keyword by its datum, any other by its kind. -/
def operatorKey (t : Token) : Datum :=
  if t.is .keyword then t.value else t.kind.label

/-- The name that a token holds. -/
def name (t : Token) : Name := ⟨t.value⟩

/-- The written form `KIND:datum`, without the datum if there is none; absent if one of the two
has no text. -/
def text? (t : Token) : Option String :=
  match t.value with
  | .blank => t.kind.label.display?
  | value => do return (← t.kind.label.display?) ++ ":" ++ (← value.display?)

end Token

end Reckoner
