import Reckoner.Proofs.Tree.Codec

/-!
# The normal form of a stored tree

A value has the shape of a stored tree if each of its objects has a known form and the parts of that
form, apart from those that may be left out (`Json.Shaped`). In its normal form (`Json.normal`)
every part is there and nothing else, in the order of the form. Whatever has the shape is read, and
its normal form is what is written of the tree; that is read as the same tree
(`Tree.decode_shaped`).
-/

set_option autoImplicit false

namespace Reckoner

namespace Json

open Reckoner.Tree (DecodeRule)

/-! ## The shape -/

/-- Null, a truth value, a number or a text. -/
def IsScalar : Json → Prop
  | .list _ | .object _ => False
  | _ => True

/-- Null or three integers. -/
inductive IsPlace : Json → Prop where
  | null : IsPlace .null
  | integers (i l c : Int) : IsPlace (.list [.ofInt i, .ofInt l, .ofInt c])

/-- A token names its kind. What it holds and where it stands may be left out. -/
inductive IsToken : Json → Prop where
  | object {fields : List (String × Json)} {kind : Json} (hkind : fields.lookup "tok" = some kind)
      (hscalar : kind.IsScalar) (hvalue : (named "value" fields).IsScalar)
      (hstart : IsPlace (named "start" fields)) (hstop : IsPlace (named "end" fields)) :
      IsToken (.object fields)

/-- What a value stands for in a stored tree. -/
inductive Role where
  | token
  | tree
  | branches
  | branch

/-- A part of a form, and whether it must be there. -/
structure Part where
  name : String
  role : Role
  required : Bool := true

/-- The parts of a form, in the order in which they are written. -/
def parts? : String → Option (List Part)
  | "Literal" => some [⟨"token", .token, true⟩]
  | "Ident" => some [⟨"token", .token, true⟩]
  | "Assign" => some [⟨"name_tok", .token, true⟩, ⟨"value", .tree, true⟩]
  | "UnaryOp" => some [⟨"op_tok", .token, true⟩, ⟨"operand", .tree, true⟩]
  | "BinaryOp" => some [⟨"op_tok", .token, true⟩, ⟨"left", .tree, true⟩, ⟨"right", .tree, true⟩]
  | "IfExpr" => some [⟨"cases", .branches, true⟩, ⟨"else_case", .tree, false⟩]
  | "ForExpr" =>
    some [⟨"var_name_tok", .token, true⟩, ⟨"start", .tree, true⟩, ⟨"end", .tree, true⟩,
      ⟨"step", .tree, false⟩, ⟨"body", .tree, true⟩]
  | "WhileExpr" => some [⟨"condition", .tree, true⟩, ⟨"body", .tree, true⟩]
  | _ => none

/-- The value has the shape of what it stands for. Fields that are no part of a form may be there
too, and null stands for a missing tree. -/
inductive Shaped : Role → Json → Prop where
  | token {v : Json} (h : IsToken v) : Shaped .token v
  | absent : Shaped .tree .null
  | object {fields : List (String × Json)} {form : String} {parts : List Part}
      (hform : fields.lookup "type" = some (.text form)) (hparts : parts? form = some parts)
      (hrequired : ∀ part ∈ parts, part.required = true → (fields.lookup part.name).isSome)
      (hshaped : ∀ part ∈ parts, ∀ v, fields.lookup part.name = some v → Shaped part.role v) :
      Shaped .tree (.object fields)
  | branches {items : List Json} (h : ∀ v ∈ items, Shaped .branch v) :
      Shaped .branches (.list items)
  | branch {condition body : Json} (hcondition : Shaped .tree condition)
      (hbody : Shaped .tree body) : Shaped .branch (.list [condition, body])

/-! ## The normal form -/

/-- One character on. -/
def nextPlace : Json → Json
  | .list [.number (.int i), .number (.int l), .number (.int c)] =>
    .list [.ofInt (i + 1), .ofInt l, .ofInt (c + 1)]
  | v => v

/-- A token without an end reaches one character. -/
def normalToken : Json → Json
  | .object fields =>
    .object
      [("tok", named "tok" fields), ("value", named "value" fields),
       ("start", named "start" fields),
       ("end", match named "end" fields with
          | .null => nextPlace (named "start" fields)
          | stop => stop)]
  | v => v

def normal : Role → Json → Json
  | .token, v => normalToken v
  | .tree, .object fields =>
    match fields.lookup "type" with
    | some (.text form) =>
      .object (("type", .text form) :: ((parts? form).getD []).map fun part =>
        (part.name, match field? part.name fields with
          | some ⟨v, _⟩ => normal part.role v
          | none => .null))
    | _ => .object fields
  | .branches, .list items => .list (items.map fun v => normal .branch v)
  | .branch, .list items => .list (items.map fun v => normal .tree v)
  | _, v => v
termination_by _ v => sizeOf v

section

variable {fields : List (String × Json)}

theorem normal_null (role : Role) : normal role .null = .null := by
  cases role <;> simp [normal, normalToken]

/-- The parts of the normal form, one by one. -/
theorem normal_object {form : String} {parts : List Part}
    (hform : fields.lookup "type" = some (.text form)) (hparts : parts? form = some parts) :
    normal .tree (.object fields) = .object (("type", .text form) ::
      parts.map fun part => (part.name, normal part.role (named part.name fields))) := by
  rw [normal, hform]
  simp only [hparts, Option.getD_some]
  congr 2
  refine List.map_congr_left fun part _ => ?_
  rw [named, ← field?_eq_lookup]
  cases field? part.name fields with
  | none => rw [Option.map_none, Option.getD_none, normal_null]
  | some v => rfl

end

/-! ## Tokens -/

variable {v : Json} {file : String}

theorem datum?_of_scalar (h : v.IsScalar) : ∃ d : Datum, v.datum? = some d ∧ d.toJson = v := by
  cases v with
  | null => exact ⟨.blank, rfl, rfl⟩
  | bool b => exact ⟨.bool b, rfl, rfl⟩
  | number n => exact ⟨.number n, rfl, rfl⟩
  | text s => exact ⟨.text s, rfl, rfl⟩
  | list | object => exact h.elim

theorem readPosition_of_place (file : String) (h : v.IsPlace) : ∃ o : Option Position,
    Tree.readPosition file v = .ok (o.map Position.stored) ∧ Position.optionToJson o = v ∧
      ∀ p ∈ o, p.file = file := by
  cases h with
  | null => exact ⟨none, rfl, rfl, nofun⟩
  | integers i l c =>
    refine ⟨some ⟨i, l, c, file⟩, rfl, rfl, ?_⟩
    rintro p ⟨⟩
    rfl

/-- The end that a token has in its normal form is the one that it is given where it has none. -/
theorem completed_toJson (start stop : Option Position) :
    Position.optionToJson (Span.completed ⟨start, stop⟩).stop =
      match Position.optionToJson stop with
      | .null => nextPlace (Position.optionToJson start)
      | v => v := by
  cases start <;> cases stop <;> rfl

theorem completed_start (start stop : Option Position) :
    (Span.completed ⟨start, stop⟩).start = start := by
  cases start <;> cases stop <;> rfl

theorem completed_isIn {start stop : Option Position} (hstart : ∀ p ∈ start, p.file = file)
    (hstop : ∀ p ∈ stop, p.file = file) :
    ∀ p ∈ (Span.completed ⟨start, stop⟩).stop, p.file = file := by
  cases start with
  | none => exact hstop
  | some p =>
    cases stop with
    | some q => exact hstop
    | none =>
      rintro q ⟨⟩
      exact hstart p rfl

theorem IsToken.decodes (file : String) (h : IsToken v) :
    ∃ t : Token, Tree.decodeToken file v = .ok t ∧ t.toJson = normalToken v ∧ t.IsIn file := by
  cases h with
  | @object fields kind hkind hscalar hvalue hstart hstop =>
    obtain ⟨label, hlabel, hlabel'⟩ := datum?_of_scalar hscalar
    obtain ⟨value, hvalue, hvalue'⟩ := datum?_of_scalar hvalue
    obtain ⟨start, hstart, hstart', hin⟩ := readPosition_of_place file hstart
    obtain ⟨stop, hstop, hstop', hin'⟩ := readPosition_of_place file hstop
    refine ⟨.make (.ofLabel label) value ⟨start, stop⟩,
      Tree.decodeToken_object hkind hlabel hvalue hstart hstop, ?_, ?_⟩
    · simp only [Token.toJson, Token.make, normalToken, Kind.label_ofLabel, completed_start,
        completed_toJson, hlabel', hvalue', hstart', hstop', named_of_lookup hkind]
    · refine ⟨?_, completed_isIn hin hin'⟩
      rw [Token.make, completed_start]
      exact hin

/-! ## Trees -/

/-- The value is read, in the file that is given, and its normal form is what is written of it. -/
def Reads (file : String) : Role → Json → Prop
  | .token, v => ∃ t : Token,
    Tree.decodeToken file v = .ok t ∧ t.toJson = normal .token v ∧ t.IsIn file
  | .tree, v => ∃ t : Tree,
    Tree.decode file v = .ok t ∧ t.toJson = normal .tree v ∧ t.All (Token.IsIn file)
  | .branches, v => ∃ items, v = .list items ∧ ∃ b : Branches,
    Branches.decode file items = .ok b ∧ .list b.toJson = normal .branches v ∧
      b.All (Token.IsIn file)
  | .branch, v => ∃ condition body, v = .list [condition, body] ∧
    ∃ t u : Tree, Tree.decode file condition = .ok t ∧ Tree.decode file body = .ok u ∧
      .list [t.toJson, u.toJson] = normal .branch v ∧ t.All (Token.IsIn file) ∧
      u.All (Token.IsIn file)

theorem reads_null : Reads file .tree .null :=
  ⟨.absent, DecodeRule.absent.decode, by rw [Tree.toJson, normal_null], trivial⟩

theorem reads_branch {condition body : Json} (hcondition : Reads file .tree condition)
    (hbody : Reads file .tree body) : Reads file .branch (.list [condition, body]) := by
  obtain ⟨t, ht, htjson, htin⟩ := hcondition
  obtain ⟨u, hu, hujson, huin⟩ := hbody
  refine ⟨condition, body, rfl, t, u, ht, hu, ?_, htin, huin⟩
  rw [normal, htjson, hujson]
  rfl

theorem reads_branches : ∀ {items : List Json}, (∀ v ∈ items, Reads file .branch v) →
    ∃ b : Branches, Branches.decode file items = .ok b ∧
      b.toJson = items.map (normal .branch) ∧ b.All (Token.IsIn file)
  | [], _ => ⟨.nil, Tree.decode_nil, by rw [Branches.toJson, List.map_nil], trivial⟩
  | v :: items, h => by
    obtain ⟨hv, hitems⟩ := List.forall_mem_cons.1 h
    obtain ⟨condition, body, rfl, t, u, ht, hu, hjson, htin, huin⟩ := hv
    obtain ⟨b, hb, hbjson, hbin⟩ := reads_branches hitems
    refine ⟨.cons t u b, Tree.decode_cons ht hu hb, ?_, htin, huin, hbin⟩
    rw [Branches.toJson, List.map_cons, hjson, hbjson]

section

variable {fields : List (String × Json)} {parts : List Part}

/-- A part that must be there is found and read. -/
theorem required_reads
    (hrequired : ∀ part ∈ parts, part.required = true → (fields.lookup part.name).isSome)
    (hreads : ∀ part ∈ parts, ∀ v, fields.lookup part.name = some v → Reads file part.role v)
    (part : Part) (hmem : part ∈ parts) (h : part.required = true) :
    ∃ v, fields.lookup part.name = some v ∧ named part.name fields = v ∧
      Reads file part.role v := by
  obtain ⟨v, hv⟩ := Option.isSome_iff_exists.1 (hrequired part hmem h)
  exact ⟨v, hv, named_of_lookup hv, hreads part hmem v hv⟩

/-- A tree that may be left out is read, as a missing one where it is left out. -/
theorem optional_reads
    (hreads : ∀ part ∈ parts, ∀ v, fields.lookup part.name = some v → Reads file part.role v)
    (name : String) (hmem : ⟨name, .tree, false⟩ ∈ parts) :
    Reads file .tree (named name fields) := by
  cases hv : fields.lookup name with
  | none =>
    rw [named, hv, Option.getD_none]
    exact reads_null
  | some v =>
    rw [named_of_lookup hv]
    exact hreads _ hmem v hv

/-- An object whose parts are read is read, form by form. -/
theorem reads_object {form : String} (hform : fields.lookup "type" = some (.text form))
    (hparts : parts? form = some parts)
    (hrequired : ∀ part ∈ parts, part.required = true → (fields.lookup part.name).isSome)
    (hreads : ∀ part ∈ parts, ∀ v, fields.lookup part.name = some v → Reads file part.role v) :
    Reads file .tree (.object fields) := by
  have hnormal := normal_object hform hparts
  have required := required_reads hrequired hreads
  have optional := optional_reads hreads
  unfold parts? at hparts
  split at hparts
  case h_1 => -- Literal
    cases hparts
    obtain ⟨_, hv, hn, t, h, hjson, hin⟩ :=
      required ⟨"token", .token, true⟩ (by simp) rfl
    refine ⟨.literal t, (DecodeRule.literal hform hv h).decode, ?_, hin⟩
    simp only [Tree.toJson, Token.storable_toJson, hnormal, List.map_cons, List.map_nil, hn, hjson]
  case h_2 => -- Ident
    cases hparts
    obtain ⟨_, hv, hn, t, h, hjson, hin⟩ :=
      required ⟨"token", .token, true⟩ (by simp) rfl
    refine ⟨.ident t, (DecodeRule.ident hform hv h).decode, ?_, hin⟩
    simp only [Tree.toJson, Token.storable_toJson, hnormal, List.map_cons, List.map_nil, hn, hjson]
  case h_3 => -- Assign
    cases hparts
    obtain ⟨_, hv₁, hn₁, name, h₁, hjson₁, hin₁⟩ :=
      required ⟨"name_tok", .token, true⟩ (by simp) rfl
    obtain ⟨_, hv₂, hn₂, value, h₂, hjson₂, hin₂⟩ :=
      required ⟨"value", .tree, true⟩ (by simp) rfl
    refine ⟨.assign name value, (DecodeRule.assign hform hv₁ hv₂ h₁ h₂).decode, ?_, hin₁, hin₂⟩
    simp only [Tree.toJson, Token.storable_toJson, hnormal, List.map_cons, List.map_nil, hn₁,
      hjson₁, hn₂, hjson₂]
  case h_4 => -- UnaryOp
    cases hparts
    obtain ⟨_, hv₁, hn₁, op, h₁, hjson₁, hin₁⟩ :=
      required ⟨"op_tok", .token, true⟩ (by simp) rfl
    obtain ⟨_, hv₂, hn₂, operand, h₂, hjson₂, hin₂⟩ :=
      required ⟨"operand", .tree, true⟩ (by simp) rfl
    refine ⟨.unary op operand, (DecodeRule.unary hform hv₁ hv₂ h₁ h₂).decode, ?_, hin₁, hin₂⟩
    simp only [Tree.toJson, Token.storable_toJson, hnormal, List.map_cons, List.map_nil, hn₁,
      hjson₁, hn₂, hjson₂]
  case h_5 => -- BinaryOp
    cases hparts
    obtain ⟨_, hv₁, hn₁, op, h₁, hjson₁, hin₁⟩ :=
      required ⟨"op_tok", .token, true⟩ (by simp) rfl
    obtain ⟨_, hv₂, hn₂, left, h₂, hjson₂, hin₂⟩ :=
      required ⟨"left", .tree, true⟩ (by simp) rfl
    obtain ⟨_, hv₃, hn₃, right, h₃, hjson₃, hin₃⟩ :=
      required ⟨"right", .tree, true⟩ (by simp) rfl
    refine ⟨.binary op left right,
      (DecodeRule.binary hform hv₁ hv₂ hv₃ h₁ h₂ h₃).decode, ?_, hin₁, hin₂, hin₃⟩
    simp only [Tree.toJson, Token.storable_toJson, hnormal, List.map_cons, List.map_nil, hn₁,
      hjson₁, hn₂, hjson₂, hn₃, hjson₃]
  case h_6 => -- IfExpr
    cases hparts
    obtain ⟨_, hv₁, hn₁, items, rfl, branches, h₁, hjson₁, hin₁⟩ :=
      required ⟨"cases", .branches, true⟩ (by simp) rfl
    obtain ⟨otherwise, h₂, hjson₂, hin₂⟩ := optional "else_case" (by simp)
    refine ⟨.conditional branches otherwise,
      (DecodeRule.conditional hform hv₁ h₁ h₂).decode, ?_, hin₁, hin₂⟩
    simp only [Tree.toJson, hnormal, List.map_cons, List.map_nil, hn₁, ← hjson₁, hjson₂]
  case h_7 => -- ForExpr
    cases hparts
    obtain ⟨_, hv₁, hn₁, name, h₁, hjson₁, hin₁⟩ :=
      required ⟨"var_name_tok", .token, true⟩ (by simp) rfl
    obtain ⟨_, hv₂, hn₂, first, h₂, hjson₂, hin₂⟩ :=
      required ⟨"start", .tree, true⟩ (by simp) rfl
    obtain ⟨_, hv₃, hn₃, last, h₃, hjson₃, hin₃⟩ :=
      required ⟨"end", .tree, true⟩ (by simp) rfl
    obtain ⟨stride, h₄, hjson₄, hin₄⟩ := optional "step" (by simp)
    obtain ⟨_, hv₅, hn₅, body, h₅, hjson₅, hin₅⟩ :=
      required ⟨"body", .tree, true⟩ (by simp) rfl
    refine ⟨.forLoop name first last stride body,
      (DecodeRule.forLoop hform hv₁ hv₂ hv₃ hv₅ h₁ h₂ h₃ h₄ h₅).decode, ?_, hin₁, hin₂, hin₃,
      hin₄, hin₅⟩
    simp only [Tree.toJson, Token.storable_toJson, hnormal, List.map_cons, List.map_nil, hn₁,
      hjson₁, hn₂, hjson₂, hn₃, hjson₃, hjson₄, hn₅, hjson₅]
  case h_8 => -- WhileExpr
    cases hparts
    obtain ⟨_, hv₁, hn₁, condition, h₁, hjson₁, hin₁⟩ :=
      required ⟨"condition", .tree, true⟩ (by simp) rfl
    obtain ⟨_, hv₂, hn₂, body, h₂, hjson₂, hin₂⟩ :=
      required ⟨"body", .tree, true⟩ (by simp) rfl
    refine ⟨.whileLoop condition body,
      (DecodeRule.whileLoop hform hv₁ hv₂ h₁ h₂).decode, ?_, hin₁, hin₂⟩
    simp only [Tree.toJson, hnormal, List.map_cons, List.map_nil, hn₁, hjson₁, hn₂, hjson₂]
  case h_9 => cases hparts

end

theorem Shaped.reads (file : String) {role : Role} (h : Shaped role v) : Reads file role v := by
  induction h with
  | token h =>
    obtain ⟨t, ht, hjson, hin⟩ := h.decodes file
    exact ⟨t, ht, by rw [normal, hjson], hin⟩
  | absent => exact reads_null
  | object hform hparts hrequired _ ih => exact reads_object hform hparts hrequired ih
  | branches _ ih =>
    obtain ⟨b, hb, hjson, hin⟩ := reads_branches ih
    refine ⟨_, rfl, b, hb, ?_, hin⟩
    rw [normal, hjson]
  | branch _ _ hcondition hbody => exact reads_branch hcondition hbody

end Json

/-- Whatever has the shape of a stored tree is read, and what is written of the tree is the normal
form. That is read as the same tree, so that it stays as it is from then on. -/
theorem Tree.decode_shaped (file : String) {v : Json} (h : v.Shaped .tree) :
    ∃ t : Tree, Tree.decode file v = .ok t ∧ t.toJson = v.normal .tree ∧
      Tree.decode file (v.normal .tree) = .ok t := by
  obtain ⟨t, ht, hjson, hin⟩ := h.reads file
  exact ⟨t, ht, hjson, hjson ▸ t.decode_toJson hin⟩

/-- A conditional with a field too many and no `ELSE`, its condition missing and the token of its
body without an end. -/
def Json.stray : Json :=
  .object
    [("note", .bool true), ("type", .text "IfExpr"),
     ("cases", .list [.list [.null, .object
        [("token", .object
            [("start", .list [.ofInt 3, .ofInt 0, .ofInt 3]), ("tok", .text "INT"),
             ("type", .text "Assign")]),
         ("type", .text "Literal")]]])]

/-- The normal form of `Json.stray`. -/
def Json.strayNormal : Json :=
  .object
    [("type", .text "IfExpr"),
     ("cases", .list [.list [.null, .object
        [("type", .text "Literal"),
         ("token", .object
            [("tok", .text "INT"), ("value", .null),
             ("start", .list [.ofInt 3, .ofInt 0, .ofInt 3]),
             ("end", .list [.ofInt 4, .ofInt 0, .ofInt 4])])]]]),
     ("else_case", .null)]

theorem Json.shaped_stray : Json.stray.Shaped .tree := by
  have htoken : Shaped .token (.object
      [("start", .list [.ofInt 3, .ofInt 0, .ofInt 3]), ("tok", .text "INT"),
       ("type", .text "Assign")]) :=
    .token (.object rfl trivial trivial (.integers 3 0 3) .null)
  have hbody : Shaped .tree (.object
      [("token", .object
          [("start", .list [.ofInt 3, .ofInt 0, .ofInt 3]), ("tok", .text "INT"),
           ("type", .text "Assign")]),
       ("type", .text "Literal")]) := by
    refine .object rfl rfl (by decide) (List.forall_mem_singleton.2 ?_)
    rintro v ⟨⟩
    exact htoken
  refine .object rfl rfl (by decide) (List.forall_mem_cons.2 ⟨?_, List.forall_mem_singleton.2 ?_⟩)
  · rintro v ⟨⟩
    exact .branches (List.forall_mem_singleton.2 (.branch .absent hbody))
  · rintro v ⟨⟩

theorem Json.normal_stray : Json.stray.normal .tree = Json.strayNormal := by
  simp [stray, strayNormal, normal, normalToken, parts?, field?, named, List.lookup_cons, nextPlace,
    ofInt]

/-- What is left out is null, what is no part is gone, and the token reaches one character. -/
theorem Tree.stray_decoded : Json.stray.Shaped .tree ∧
    ∃ t : Tree, Tree.decode "<ast>" Json.stray = .ok t ∧ t.toJson = Json.strayNormal ∧
      Tree.decode "<ast>" Json.strayNormal = .ok t := by
  have h := Tree.decode_shaped "<ast>" Json.shaped_stray
  rw [Json.normal_stray] at h
  exact ⟨Json.shaped_stray, h⟩

end Reckoner
