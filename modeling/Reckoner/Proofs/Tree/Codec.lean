import Reckoner.Proofs.Tree.Decode
import Reckoner.Proofs.Tree.Move
import Reckoner.Proofs.Tree.Regular

/-!
# Reading trees back

What is written of a tree is everything but the name of the file. Reading puts all positions into
the file that is given again (`Tree.decode_toJson_move`), so that it gives the tree back exactly if
they were in that file before (`Tree.decode_toJson_eq_iff`). Children may be missing in the tree,
and so may positions.
-/

set_option autoImplicit false

namespace Reckoner

/-- The same place of the file `file`. -/
def Position.inFile (file : String) (p : Position) : Position := { p with file := file }

/-- The positions of the token, as far as it has any, are in the file. -/
structure Token.IsIn (file : String) (t : Token) : Prop where
  start : ∀ p ∈ t.span.start, p.file = file
  stop : ∀ p ∈ t.span.stop, p.file = file

mutual

/-- Every token of the tree has the property. -/
def Tree.All (P : Token → Prop) : Tree → Prop
  | .absent => True
  | .literal t => P t
  | .ident t => P t
  | .assign name value => P name ∧ value.All P
  | .unary op operand => P op ∧ operand.All P
  | .binary op left right => P op ∧ left.All P ∧ right.All P
  | .conditional branches otherwise => branches.All P ∧ otherwise.All P
  | .forLoop name first last stride body =>
    P name ∧ first.All P ∧ last.All P ∧ stride.All P ∧ body.All P
  | .whileLoop condition body => condition.All P ∧ body.All P

def Branches.All (P : Token → Prop) : Branches → Prop
  | .nil => True
  | .cons condition body rest => condition.All P ∧ body.All P ∧ rest.All P

end

section

variable {P : Token → Prop}

mutual

theorem Tree.Regular.all : ∀ {t : Tree}, t.Regular P → t.All P
  | .literal _, h | .ident _, h => h.2
  | .assign _ value, h | .unary _ value, h => ⟨h.1.2, Tree.Regular.all (t := value) h.2⟩
  | .binary _ left right, h =>
    ⟨h.1.2, Tree.Regular.all (t := left) h.2.1, Tree.Regular.all (t := right) h.2.2⟩
  | .conditional branches otherwise, h => by
    refine ⟨Branches.Regular.all (b := branches) h.1.2, ?_⟩
    rcases h.2 with rfl | ho
    · trivial
    · exact Tree.Regular.all (t := otherwise) ho
  | .forLoop name first last stride body, h => by
    obtain ⟨hname, ⟨hfirst, hlast⟩, hstride, hbody⟩ := h
    refine ⟨hname.2, Tree.Regular.all (t := first) hfirst, Tree.Regular.all (t := last) hlast, ?_,
      Tree.Regular.all (t := body) hbody⟩
    rcases hstride with rfl | hstride
    · trivial
    · exact Tree.Regular.all (t := stride) hstride
  | .whileLoop condition body, h =>
    ⟨Tree.Regular.all (t := condition) h.1, Tree.Regular.all (t := body) h.2⟩

theorem Branches.Regular.all : ∀ {b : Branches}, b.Regular P → b.All P
  | .nil, _ => trivial
  | .cons condition body rest, h =>
    ⟨Tree.Regular.all (t := condition) h.1.1, Tree.Regular.all (t := body) h.1.2,
      Branches.Regular.all (b := rest) h.2⟩

end

end

/-! ## Moved trees -/

theorem Position.inFile_eq_self_iff {file : String} {p : Position} :
    p.inFile file = p ↔ p.file = file := by
  constructor
  · intro h
    rw [← h]
    rfl
  · rintro rfl
    rfl

theorem Option.map_eq_self_iff {α : Type} {f : α → α} {o : Option α} :
    o.map f = o ↔ ∀ a ∈ o, f a = a := by
  cases o <;> simp

theorem Token.move_eq_self_iff {f : Position → Position} {t : Token} :
    t.move f = t ↔ t.span.move f = t.span := by
  refine ⟨fun h => congrArg Token.span h, fun h => ?_⟩
  obtain ⟨kind, value, span, complete⟩ := t
  simpa [Token.move] using h

/-- A token stays where it is put into a file if and only if it is in that file. -/
theorem Token.move_inFile_eq_self_iff {file : String} {t : Token} :
    t.move (.inFile file) = t ↔ t.IsIn file := by
  rw [Token.move_eq_self_iff, Span.move]
  constructor
  · intro h
    have hstart := Option.map_eq_self_iff.1 (congrArg Span.start h)
    have hstop := Option.map_eq_self_iff.1 (congrArg Span.stop h)
    exact ⟨fun p hp => Position.inFile_eq_self_iff.1 (hstart p hp),
      fun p hp => Position.inFile_eq_self_iff.1 (hstop p hp)⟩
  · intro h
    rw [Option.map_eq_self_iff.2 fun p hp => Position.inFile_eq_self_iff.2 (h.start p hp),
      Option.map_eq_self_iff.2 fun p hp => Position.inFile_eq_self_iff.2 (h.stop p hp)]

section

variable {f : Position → Position}

mutual

/-- A tree stays as it is if and only if each of its tokens does. -/
theorem Tree.move_eq_self_iff : ∀ t : Tree, t.move f = t ↔ t.All fun k => k.move f = k
  | .absent => by simp [Tree.move, Tree.All]
  | .literal t | .ident t => by simp [Tree.move, Tree.All]
  | .assign name value => by simp [Tree.move, Tree.All, value.move_eq_self_iff]
  | .unary op operand => by simp [Tree.move, Tree.All, operand.move_eq_self_iff]
  | .binary op left right => by
    simp [Tree.move, Tree.All, left.move_eq_self_iff, right.move_eq_self_iff]
  | .conditional branches otherwise => by
    simp [Tree.move, Tree.All, branches.move_eq_self_iff, otherwise.move_eq_self_iff]
  | .forLoop name first last stride body => by
    simp [Tree.move, Tree.All, first.move_eq_self_iff, last.move_eq_self_iff,
      stride.move_eq_self_iff, body.move_eq_self_iff]
  | .whileLoop condition body => by
    simp [Tree.move, Tree.All, condition.move_eq_self_iff, body.move_eq_self_iff]

theorem Branches.move_eq_self_iff : ∀ b : Branches, b.move f = b ↔ b.All fun k => k.move f = k
  | .nil => by simp [Branches.move, Branches.All]
  | .cons condition body rest => by
    simp [Branches.move, Branches.All, condition.move_eq_self_iff, body.move_eq_self_iff,
      rest.move_eq_self_iff]

end

end

/-! ## Tokens -/

section

variable {file : String}

theorem readPosition_toJson (o : Option Position) :
    Tree.readPosition file (Position.optionToJson o) =
      .ok ((o.map (.inFile file)).map Position.stored) := by
  cases o <;> rfl

theorem decodeToken_toJson (t : Token) :
    Tree.decodeToken file t.toJson = .ok (t.move (.inFile file)) := by
  have hmake : Token.make (.ofLabel t.kind.label) t.value (t.span.move (.inFile file)) =
      t.move (.inFile file) := by
    have hcomplete := (t.move (.inFile file)).complete
    simp only [Token.move] at hcomplete
    simp only [Token.make, Token.move, Kind.ofLabel_label, hcomplete]
  rw [← hmake]
  exact Tree.decodeToken_object rfl (Tree.datum?_toJson _) (Tree.datum?_toJson _)
    (readPosition_toJson _) (readPosition_toJson _)

/-! ## Trees -/

mutual

theorem Tree.toJson_rule : ∀ t : Tree, Tree.DecodeRule file t.toJson (t.move (.inFile file))
  | .absent => .absent
  | .literal t => .literal rfl rfl (decodeToken_toJson t)
  | .ident t => .ident rfl rfl (decodeToken_toJson t)
  | .assign name value => .assign rfl rfl rfl (decodeToken_toJson name) value.toJson_rule.decode
  | .unary op operand => .unary rfl rfl rfl (decodeToken_toJson op) operand.toJson_rule.decode
  | .binary op left right =>
    .binary rfl rfl rfl rfl (decodeToken_toJson op) left.toJson_rule.decode
      right.toJson_rule.decode
  | .conditional branches otherwise =>
    .conditional rfl rfl branches.decode_toJson_move otherwise.toJson_rule.decode
  | .forLoop name first last stride body =>
    .forLoop rfl rfl rfl rfl rfl (decodeToken_toJson name) first.toJson_rule.decode
      last.toJson_rule.decode stride.toJson_rule.decode body.toJson_rule.decode
  | .whileLoop condition body =>
    .whileLoop rfl rfl rfl condition.toJson_rule.decode body.toJson_rule.decode

theorem Branches.decode_toJson_move : ∀ b : Branches,
    Branches.decode file b.toJson = .ok (b.move (.inFile file))
  | .nil => Tree.decode_nil
  | .cons condition body rest =>
    Tree.decode_cons condition.toJson_rule.decode body.toJson_rule.decode rest.decode_toJson_move

end

/-- What is written of a tree is read back, with its positions in the file that is given. -/
theorem Tree.decode_toJson_move (t : Tree) :
    Tree.decode file t.toJson = .ok (t.move (.inFile file)) :=
  t.toJson_rule.decode

/-- A tree is moved nowhere by being put into a file if and only if it is in that file. -/
theorem Tree.move_inFile_eq_self_iff (t : Tree) :
    t.move (.inFile file) = t ↔ t.All (Token.IsIn file) := by
  simp only [Tree.move_eq_self_iff, Token.move_inFile_eq_self_iff]

theorem Tree.decode_toJson (t : Tree) (h : t.All (Token.IsIn file)) :
    Tree.decode file t.toJson = .ok t := by
  rw [t.decode_toJson_move, t.move_inFile_eq_self_iff.2 h]

/-- Every tree can be read back, whatever children and positions are missing in it: the forms, the
children in their places and the kinds, data and places of the tokens are those that were written,
in the file that is given. Hence it is the same tree if and only if it was in that file. -/
theorem Tree.decode_toJson_eq_iff (file : String) (t : Tree) :
    Tree.decode file t.toJson = .ok (t.move (.inFile file)) ∧
      (Tree.decode file t.toJson = .ok t ↔ t.All (Token.IsIn file)) := by
  refine ⟨t.decode_toJson_move, ?_⟩
  rw [t.decode_toJson_move, Except.ok.injEq, t.move_inFile_eq_self_iff]

end

end Reckoner
