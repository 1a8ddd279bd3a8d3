import Reckoner.Proofs.Grammar.Mark

/-!
# The grammar as productions

The grammar of `Reckoner.Grammar.Parse`, read as a context-free grammar. A phrase is a rule or an
optional or repeated part of one, a production says of which items a phrase may consist, and
`build` what is made of them: operators of one level fold to the left, a power reaches to the
right. The grammar is ambiguous: `predict` gives the one production that a token ahead calls
for, under the reading that an optional part is taken wherever it can be. What the table says is
in the lemmas on first items (`predict_of_admits`, `predict_of_starts` and their converses).
-/

set_option autoImplicit false

namespace Reckoner

namespace Grammar

/-! ## Items -/

/-- The levels of operators that may be repeated, loosest binding first. -/
inductive Level where
  | logical
  | comparison
  | additive
  | multiplicative
  deriving DecidableEq

namespace Level

def admits : Level → Mark → Bool
  | .logical, m => m == .keyword .and || m == .keyword .or
  | .comparison, m =>
    m == .symbol .equal || m == .symbol .unequal || m == .symbol .less || m == .symbol .greater ||
      m == .symbol .atMost || m == .symbol .atLeast
  | .additive, m => m == .symbol .plus || m == .symbol .minus
  | .multiplicative, m => m == .symbol .times || m == .symbol .divide

def operand : Level → Rule
  | .logical => .condition
  | .comparison => .sum
  | .additive => .product
  | .multiplicative => .factor

end Level

/-- What may stand in the place of a single token. -/
inductive Terminal where
  | keyword (w : Keyword)
  | number
  | name
  | assign
  | openParen
  | closeParen
  | power
  | operator (l : Level)

def Terminal.admits : Terminal → Mark → Bool
  | .keyword w, m => m == .keyword w
  | .number, m => m == .symbol .int || m == .symbol .float
  | .name, m => m == .symbol .identifier
  | .assign, m => m == .symbol .assign
  | .openParen, m => m == .symbol .openParen
  | .closeParen, m => m == .symbol .closeParen
  | .power, m => m == .symbol .power
  | .operator l, m => l.admits m

/-- The optional and repeated parts of rules. -/
inductive Part where
  /-- operators of one level, each with its right operand -/
  | operations (l : Level)
  | exponent
  /-- the `ELIF` parts and the `ELSE` part of a conditional -/
  | branches
  | stride

/-- Whether a token with this mark can start the part. -/
def Part.opens : Part → Mark → Bool
  | .operations l, m => l.admits m
  | .exponent, m => m == .symbol .power
  | .branches, m => m == .keyword .elifWord || m == .keyword .elseWord
  | .stride, m => m == .keyword .step

inductive Phrase where
  | rule (r : Rule)
  | part (o : Part)

inductive Item where
  | token (k : Terminal)
  | phrase (p : Phrase)

/-! ## Productions -/

inductive Production : Phrase → Type where
  | assignment : Production (.rule .expression)
  | logical : Production (.rule .expression)
  | negation : Production (.rule .condition)
  | comparison : Production (.rule .condition)
  | sum : Production (.rule .sum)
  | product : Production (.rule .product)
  | signed : Production (.rule .factor)
  | unsigned : Production (.rule .factor)
  | power : Production (.rule .power)
  | number : Production (.rule .atom)
  | name : Production (.rule .atom)
  | group : Production (.rule .atom)
  | conditionalForm : Production (.rule .atom)
  | forForm : Production (.rule .atom)
  | whileForm : Production (.rule .atom)
  | conditional : Production (.rule .conditional)
  | forLoop : Production (.rule .forLoop)
  | whileLoop : Production (.rule .whileLoop)
  /-- the part is left out, or not repeated once more -/
  | omitted (o : Part) : Production (.part o)
  | operation (l : Level) : Production (.part (.operations l))
  | exponent : Production (.part .exponent)
  | elifBranch : Production (.part .branches)
  | elseBranch : Production (.part .branches)
  | stride : Production (.part .stride)

abbrev Item.rule (r : Rule) : Item := .phrase (.rule r)
abbrev Item.part (o : Part) : Item := .phrase (.part o)
abbrev Item.word (w : Keyword) : Item := .token (.keyword w)

def Production.items {p : Phrase} : Production p → List Item
  | .assignment => [.word .var, .token .name, .token .assign, .rule .expression]
  | .logical => [.rule .condition, .part (.operations .logical)]
  | .negation => [.word .not, .rule .condition]
  | .comparison => [.rule .sum, .part (.operations .comparison)]
  | .sum => [.rule .product, .part (.operations .additive)]
  | .product => [.rule .factor, .part (.operations .multiplicative)]
  | .signed => [.token (.operator .additive), .rule .factor]
  | .unsigned => [.rule .power]
  | .power => [.rule .atom, .part .exponent]
  | .number => [.token .number]
  | .name => [.token .name]
  | .group => [.token .openParen, .rule .expression, .token .closeParen]
  | .conditionalForm => [.rule .conditional]
  | .forForm => [.rule .forLoop]
  | .whileForm => [.rule .whileLoop]
  | .conditional =>
    [.word .ifWord, .rule .expression, .word .doWord, .rule .expression, .part .branches]
  | .forLoop =>
    [.word .forWord, .token .name, .token .assign, .rule .expression, .word .upto,
      .rule .expression, .part .stride, .word .doWord, .rule .expression]
  | .whileLoop => [.word .whileWord, .rule .expression, .word .doWord, .rule .expression]
  | .omitted _ => []
  | .operation l => [.token (.operator l), .rule l.operand, .part (.operations l)]
  | .exponent => [.token .power, .rule .factor]
  | .elifBranch =>
    [.word .elifWord, .rule .expression, .word .doWord, .rule .expression, .part .branches]
  | .elseBranch => [.word .elseWord, .rule .expression]
  | .stride => [.word .step, .rule .expression]

/-! ## What is made of the items -/

/-- Rules make trees; operations and exponents make a tree of the one to their left, and
branches add to those read before. -/
def Phrase.Meaning : Phrase → Type
  | .rule _ => Tree
  | .part (.operations _) => Tree → Tree
  | .part .exponent => Tree → Tree
  | .part .branches => List (Tree × Tree) × Tree
  | .part .stride => Tree

def Item.Meaning : Item → Type
  | .token _ => Token
  | .phrase p => p.Meaning

def Meanings : List Item → Type
  | [] => Unit
  | i :: is => i.Meaning × Meanings is

def Production.build {p : Phrase} : (q : Production p) → Meanings q.items → p.Meaning
  | .assignment, (_, target, _, value, _) => Tree.assign target value
  | .logical, (left, operations, _) => operations left
  | .negation, (op, operand, _) => Tree.unary op operand
  | .comparison, (left, operations, _) => operations left
  | .sum, (left, operations, _) => operations left
  | .product, (left, operations, _) => operations left
  | .signed, (op, operand, _) => Tree.unary op operand
  | .unsigned, (t, _) => t
  | .power, (base, raise, _) => raise base
  | .number, (t, _) => Tree.literal t
  | .name, (t, _) => Tree.ident t
  | .group, (_, t, _, _) => t
  | .conditionalForm, (t, _) => t
  | .forForm, (t, _) => t
  | .whileForm, (t, _) => t
  | .conditional, (_, condition, _, body, (branches, otherwise), _) =>
    Tree.conditional (Branches.ofList ((condition, body) :: branches)) otherwise
  | .forLoop, (_, target, _, first, _, last, step, _, body, _) =>
    Tree.forLoop target first last step body
  | .whileLoop, (_, condition, _, body, _) => Tree.whileLoop condition body
  | .omitted (.operations _), _ => id
  | .omitted .exponent, _ => id
  | .omitted .branches, _ => ([], Tree.absent)
  | .omitted .stride, _ => Tree.absent
  | .operation l, (op, right, operations, _) => fun left => operations (Tree.binary op left right)
  | .exponent, (op, right, _) => fun left => Tree.binary op left right
  | .elifBranch, (_, condition, _, body, (branches, otherwise), _) =>
    ((condition, body) :: branches, otherwise)
  | .elseBranch, (_, otherwise, _) => ([], otherwise)
  | .stride, (_, step, _) => step

/-! ## What a token ahead calls for -/

def predictAtom : Mark → Option (Production (.rule .atom))
  | .symbol .int | .symbol .float => some .number
  | .symbol .identifier => some .name
  | .symbol .openParen => some .group
  | .keyword .ifWord => some .conditionalForm
  | .keyword .forWord => some .forForm
  | .keyword .whileWord => some .whileForm
  | _ => none

/-- Whether a token with this mark can start the rule. -/
def Rule.starts : Rule → Mark → Bool
  | .expression, m =>
    m == .keyword .var || m == .keyword .not || Level.additive.admits m || (predictAtom m).isSome
  | .condition, m => m == .keyword .not || Level.additive.admits m || (predictAtom m).isSome
  | .sum, m | .product, m | .factor, m => Level.additive.admits m || (predictAtom m).isSome
  | .power, m | .atom, m => (predictAtom m).isSome
  | .conditional, m => m == .keyword .ifWord
  | .forLoop, m => m == .keyword .forWord
  | .whileLoop, m => m == .keyword .whileWord

/-- The production by which a phrase is read before a token with this mark; none where no
production of the phrase starts so. -/
def predict : (p : Phrase) → Mark → Option (Production p)
  | .rule .expression, m =>
    if m = .keyword .var then some .assignment
    else if Rule.condition.starts m then some .logical
    else none
  | .rule .condition, m =>
    if m = .keyword .not then some .negation
    else if Rule.sum.starts m then some .comparison
    else none
  | .rule .sum, m => if Rule.product.starts m then some .sum else none
  | .rule .product, m => if Rule.factor.starts m then some .product else none
  | .rule .factor, m =>
    if Level.additive.admits m then some .signed
    else if Rule.power.starts m then some .unsigned
    else none
  | .rule .power, m => if Rule.atom.starts m then some .power else none
  | .rule .atom, m => predictAtom m
  | .rule .conditional, m => if m = .keyword .ifWord then some .conditional else none
  | .rule .forLoop, m => if m = .keyword .forWord then some .forLoop else none
  | .rule .whileLoop, m => if m = .keyword .whileWord then some .whileLoop else none
  | .part (.operations l), m => some (if l.admits m then .operation l else .omitted _)
  | .part .exponent, m => some (if m = .symbol .power then .exponent else .omitted _)
  | .part .branches, m =>
    some
      (if m = .keyword .elifWord then .elifBranch
      else if m = .keyword .elseWord then .elseBranch
      else .omitted _)
  | .part .stride, m => some (if m = .keyword .step then .stride else .omitted _)

/-- How many rules can still follow one another before a token is read. -/
def Rule.rank : Rule → Nat
  | .expression => 8
  | .condition => 7
  | .sum => 6
  | .product => 5
  | .factor => 4
  | .power => 3
  | .atom => 2
  | .conditional | .forLoop | .whileLoop => 1

/-! ## The table of predictions -/

theorem isSome_predict (r : Rule) (m : Mark) : (predict (.rule r) m).isSome = r.starts m := by
  cases r <;> simp only [predict, Rule.starts] <;> grind

theorem predictAtom_sign {m : Mark} (h : Level.additive.admits m = true) :
    predictAtom m = none := by
  simp only [Level.admits, Bool.or_eq_true, beq_iff_eq] at h
  rcases h with rfl | rfl <;> rfl

section

variable {p : Phrase} {m : Mark} {q : Production p} {is : List Item}

/-- A predicted production that starts with a token admits the token ahead. -/
theorem admits_of_predict {k : Terminal} (h : predict p m = some q)
    (hi : q.items = .token k :: is) : k.admits m = true := by
  cases q <;> cases hi
  case number | name | group =>
    simp only [predict, predictAtom] at h
    split at h <;> simp_all [Terminal.admits]
  all_goals
    simp only [predict] at h
    repeat' split at h
    all_goals simp_all [Terminal.admits]

/-- A production whose first token admits the token ahead is predicted. -/
theorem predict_of_admits {k : Terminal} (hi : q.items = .token k :: is)
    (h : k.admits m = true) : predict p m = some q := by
  cases q <;> cases hi <;>
    simp only [Terminal.admits, Bool.or_eq_true, beq_iff_eq] at h
  case number => rcases h with rfl | rfl <;> rfl
  all_goals simp_all [predict, predictAtom]

/-- A predicted production that starts with a rule starts with one that the token ahead starts. -/
theorem starts_of_predict {r : Rule} (h : predict p m = some q)
    (hi : q.items = .rule r :: is) : r.starts m = true := by
  cases q <;> cases hi
  case conditionalForm | forForm | whileForm =>
    simp only [predict, predictAtom] at h
    split at h <;> simp_all [Rule.starts]
  all_goals
    simp only [predict] at h
    repeat' split at h
    all_goals first | assumption | cases h

/-- A production whose first rule the token ahead can start is predicted. -/
theorem predict_of_starts {r : Rule} (hi : q.items = .rule r :: is)
    (h : r.starts m = true) : predict p m = some q := by
  cases q <;> cases hi
  case logical =>
    have hm : m ≠ .keyword .var := by rintro rfl; cases h
    simp only [predict, if_neg hm, h, if_true]
  case comparison =>
    have hm : m ≠ .keyword .not := by rintro rfl; cases h
    simp only [predict, if_neg hm, h, if_true]
  case unsigned =>
    have hm : Level.additive.admits m ≠ true := by
      intro hm
      simp [Rule.starts, predictAtom_sign hm] at h
    simp only [predict, if_neg hm, h, if_true]
  case conditionalForm | forForm | whileForm =>
    simp only [Rule.starts, beq_iff_eq] at h
    subst h
    rfl
  all_goals simp only [predict, h, if_true]

/-- What cannot start a rule cannot start the rules that begin with it. -/
theorem predict_eq_none {r r' : Rule} {q : Production (.rule r)} (hi : q.items = .rule r' :: is)
    (h : predict (.rule r) m = none) : predict (.rule r') m = none := by
  rw [← Option.not_isSome_iff_eq_none, isSome_predict]
  intro hs
  rw [predict_of_starts hi hs] at h
  cases h

/-- The first rule of a production ranks below the phrase. -/
theorem rank_lt_of_items {r r' : Rule} {q : Production (.rule r)}
    (hi : q.items = .rule r' :: is) : r'.rank < r.rank := by
  cases q <;> cases hi <;> decide

end

/-- Parts are predicted before every token: they are left out where it does not open them. -/
theorem predict_part_omitted {o : Part} {m : Mark} :
    predict (.part o) m = some (.omitted o) ↔ o.opens m = false := by
  cases o <;> simp only [predict, Part.opens] <;> grind

theorem isSome_predict_part (o : Part) (m : Mark) : (predict (.part o) m).isSome = true := by
  cases o <;> rfl

/-- The levels have no operator in common. -/
theorem eq_of_admits {l l' : Level} {m : Mark} (h : l.admits m = true) (h' : l'.admits m = true) :
    l = l' := by
  cases l <;> cases l' <;> first | rfl | (simp only [Level.admits] at h h'; grind)

/-- No token opens two parts. -/
theorem eq_of_opens {o o' : Part} {m : Mark} (h : o.opens m = true) (h' : o'.opens m = true) :
    o = o' := by
  cases o <;> cases o' <;> simp only [Part.opens] at h h'
  case operations.operations => rw [eq_of_admits h h']
  case operations.exponent l | operations.branches l | operations.stride l |
      exponent.operations l | branches.operations l | stride.operations l =>
    cases l <;> simp only [Level.admits] at h h' <;> grind
  all_goals first | rfl | grind

/-- The end opens no part. -/
theorem opens_end (o : Part) : o.opens (.symbol .endOfText) = false := by
  rcases o with l | _ | _ | _ <;> first | rfl | (cases l <;> rfl)

end Grammar

end Reckoner
