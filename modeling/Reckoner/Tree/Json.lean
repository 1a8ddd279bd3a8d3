import Reckoner.Tree.Stored

/-!
# Trees as JSON

A tree is written as an object with its form and its parts, a token as an object with its kind,
its datum and its ends, and a position as a list of three integers; the name of the file is
given again when a tree is read back. Optional parts may be left out, other fields are ignored,
and the first part that cannot be read decides the failure. Reading gives a tree of stored tokens
(`Tree.read`); the tree that is evaluated holds what these settle to (`Tree.decode`).
-/

set_option autoImplicit false

namespace Reckoner

/-! ## Writing -/

def Position.toJson (p : Position) : Json :=
  .list [.ofInt p.index, .ofInt p.line, .ofInt p.column]

def Position.optionToJson : Option Position → Json
  | some p => p.toJson
  | none => .null

def Datum.toJson : Datum → Json
  | .number n => .number n
  | .text s => .text s
  | .bool b => .bool b
  | .blank => .null

def Token.toJson (t : Token) : Json :=
  .object
    [("tok", t.kind.label.toJson),
     ("value", t.value.toJson),
     ("start", Position.optionToJson t.span.start),
     ("end", Position.optionToJson t.span.stop)]

namespace Stored

def Position.toJson (p : Position) : Json := .list [p.index, p.line, p.column]

def Token.toJson (t : Token) : Json :=
  .object
    [("tok", t.kind), ("value", t.value), ("start", (t.start.map Position.toJson).getD .null),
     ("end", (t.stop.map Position.toJson).getD .null)]

end Stored

/-- Tokens that are written in a tree. -/
class Storable (τ : Type) where
  toJson : τ → Json

instance : Storable Token := ⟨Token.toJson⟩

instance : Storable Stored.Token := ⟨Stored.Token.toJson⟩

@[simp] theorem Token.storable_toJson (t : Token) : Storable.toJson t = t.toJson := rfl

section

variable {τ : Type} [Storable τ]

mutual

def Tree.toJson : Tree τ → Json
  | .absent => .null
  | .literal t => .object [("type", .text "Literal"), ("token", Storable.toJson t)]
  | .ident t => .object [("type", .text "Ident"), ("token", Storable.toJson t)]
  | .assign name value =>
    .object
      [("type", .text "Assign"), ("name_tok", Storable.toJson name), ("value", value.toJson)]
  | .unary op operand =>
    .object
      [("type", .text "UnaryOp"), ("op_tok", Storable.toJson op), ("operand", operand.toJson)]
  | .binary op left right =>
    .object
      [("type", .text "BinaryOp"), ("op_tok", Storable.toJson op), ("left", left.toJson),
       ("right", right.toJson)]
  | .conditional branches otherwise =>
    .object
      [("type", .text "IfExpr"), ("cases", .list branches.toJson),
       ("else_case", otherwise.toJson)]
  | .forLoop name first last stride body =>
    .object
      [("type", .text "ForExpr"), ("var_name_tok", Storable.toJson name), ("start", first.toJson),
       ("end", last.toJson), ("step", stride.toJson), ("body", body.toJson)]
  | .whileLoop condition body =>
    .object
      [("type", .text "WhileExpr"), ("condition", condition.toJson), ("body", body.toJson)]

def Branches.toJson : Branches τ → List Json
  | .nil => []
  | .cons condition body rest => .list [condition.toJson, body.toJson] :: rest.toJson

end

end

/-! ## Reading -/

namespace Tree

inductive DecodeFailure where
  | missingField (name : String)
  /-- a form that does not exist; a missing one is null -/
  | unknownForm (form : Json)
  | notATree
  | notAToken
  /-- a position without parts -/
  | notAPosition
  /-- a position that does not have three parts -/
  | positionLength
  /-- a start without an end and without a place one character on -/
  | noNextPosition
  /-- branches, or one of them, without parts -/
  | notBranches
  /-- a branch that does not have two parts -/
  | branchLength

/-- What is wrong with the part that cannot be read: what kind of value it is, what it says, or that
it is not there. -/
inductive Cause where
  | kind
  | value
  | absence
  deriving DecidableEq

def DecodeFailure.cause : DecodeFailure → Cause
  | .missingField _ => .absence
  | .unknownForm _ | .positionLength | .branchLength => .value
  | .notATree | .notAToken | .notAPosition | .noNextPosition | .notBranches => .kind

abbrev Decoded (α : Type) := Except DecodeFailure α

/-- A field that must be there. -/
def require (name : String) (fields : List (String × Json)) :
    Decoded { v : Json // sizeOf v < sizeOf fields } :=
  match Json.field? name fields with
  | some v => .ok v
  | none => .error (.missingField name)

/-- A field that may be left out. -/
def optional (name : String) (fields : List (String × Json)) : Json :=
  match Json.field? name fields with
  | some v => v.1
  | none => .null

/-- The position that a value stands for, if it is given. -/
def readPosition (file : String) : Json → Decoded (Option Stored.Position)
  | .null => .ok none
  | v =>
    match v.items? with
    | none => .error .notAPosition
    | some [index, line, column] => .ok (some ⟨index, line, column, file⟩)
    | some _ => .error .positionLength

/-- The end of a token, one character after its start if only that is given. -/
def completeStop : Option Stored.Position → Option Stored.Position →
    Decoded (Option Stored.Position)
  | some p, none =>
    match p.next? with
    | some q => .ok (some q)
    | none => .error .noNextPosition
  | _, stop => .ok stop

def readToken (file : String) : Json → Decoded Stored.Token
  | .object fields => do
    let ⟨kind, _⟩ ← require "tok" fields
    let start ← readPosition file (optional "start" fields)
    let stop ← readPosition file (optional "end" fields)
    let stop ← completeStop start stop
    return ⟨kind, optional "value" fields, start, stop⟩
  | _ => .error .notAToken

/-- An optional field as it is read where a tree is due. -/
def optionalTree (name : String) (fields : List (String × Json)) :
    { v : Json // sizeOf v < 1 + sizeOf fields } :=
  match Json.field? name fields with
  | some ⟨v, h⟩ => ⟨v, by omega⟩
  | none =>
    have nonempty : 0 < sizeOf fields := by
      cases fields with
      | nil => decide
      | cons _ _ => simp only [List.cons.sizeOf_spec]; omega
    ⟨.null, by simpa using nonempty⟩

/-- Why a value that is not a list is no branch: if it has two parts, they are texts and no
trees. -/
def noBranch (v : Json) : DecodeFailure :=
  match v.items? with
  | none => .notBranches
  | some parts => if parts.length = 2 then .notATree else .branchLength

/-- Branches given by a value that is not a list; such a value has no branch in it. -/
def noBranches (v : Json) : Decoded (Branches Stored.Token) :=
  match v.items? with
  | none => .error .notBranches
  | some [] => .ok .nil
  | some (part :: _) => .error (noBranch part)

mutual

/-- The tree that a value stands for, with its positions in `file`. -/
def read (file : String) : Json → Decoded (Tree Stored.Token)
  | .null => .ok .absent
  | .object fields =>
    match optional "type" fields with
    | .text "Literal" => do return .literal (← readToken file (← require "token" fields).1)
    | .text "Ident" => do return .ident (← readToken file (← require "token" fields).1)
    | .text "Assign" => do
      let name ← readToken file (← require "name_tok" fields).1
      let ⟨value, _⟩ ← require "value" fields
      return .assign name (← read file value)
    | .text "UnaryOp" => do
      let op ← readToken file (← require "op_tok" fields).1
      let ⟨operand, _⟩ ← require "operand" fields
      return .unary op (← read file operand)
    | .text "BinaryOp" => do
      let op ← readToken file (← require "op_tok" fields).1
      let ⟨left, _⟩ ← require "left" fields
      let left ← read file left
      let ⟨right, _⟩ ← require "right" fields
      return .binary op left (← read file right)
    | .text "IfExpr" => do
      let ⟨branches, h⟩ ← require "cases" fields
      let branches ← match branches, h with
        | .list items, h =>
          have : sizeOf items < sizeOf fields := by simp at h; omega
          readBranches file items
        | v, _ => noBranches v
      let ⟨otherwise, _⟩ := optionalTree "else_case" fields
      return .conditional branches (← read file otherwise)
    | .text "ForExpr" => do
      let name ← readToken file (← require "var_name_tok" fields).1
      let ⟨first, _⟩ ← require "start" fields
      let first ← read file first
      let ⟨last, _⟩ ← require "end" fields
      let last ← read file last
      let ⟨stride, _⟩ := optionalTree "step" fields
      let stride ← read file stride
      let ⟨body, _⟩ ← require "body" fields
      return .forLoop name first last stride (← read file body)
    | .text "WhileExpr" => do
      let ⟨condition, _⟩ ← require "condition" fields
      let condition ← read file condition
      let ⟨body, _⟩ ← require "body" fields
      return .whileLoop condition (← read file body)
    | form => .error (.unknownForm form)
  | _ => .error .notATree
termination_by v => sizeOf v

def readBranches (file : String) : List Json → Decoded (Branches Stored.Token)
  | [] => .ok .nil
  | .list [condition, body] :: rest => do
    let condition ← read file condition
    let body ← read file body
    return .cons condition body (← readBranches file rest)
  | .list _ :: _ => .error .branchLength
  | v :: _ => .error (noBranch v)
termination_by items => sizeOf items

end

/-! ## Reading what can be evaluated -/

/-- Why nothing is read that can be evaluated. -/
inductive Undecoded where
  | refused (f : DecodeFailure)
  /-- it is read, but a token holds what evaluation is not given for -/
  | foreign

/-- What something that is read settles to. -/
def settled {α β : Type} (settle? : α → Option β) : Decoded α → Except Undecoded β
  | .error f => .error (.refused f)
  | .ok a =>
    match settle? a with
    | some b => .ok b
    | none => .error .foreign

def decodeToken (file : String) (v : Json) : Except Undecoded Token :=
  settled Stored.Token.settle? (readToken file v)

def decode (file : String) (v : Json) : Except Undecoded Tree := settled settle? (read file v)

end Tree

end Reckoner
