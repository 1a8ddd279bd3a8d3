import Reckoner.Tree.Json

/-!
# Reading an object by its fields

What is read of an object is what is read of its fields, found by their names: one rule for tokens
(`Tree.decodeToken_object`) and one for each form of trees (`Tree.DecodeRule`). What is read holds
stored tokens, and the rules say at once what these settle to.
-/

set_option autoImplicit false

namespace Reckoner

namespace Json

/-- The value of a field, null if there is none of that name. -/
def named (name : String) (fields : List (String × Json)) : Json :=
  (fields.lookup name).getD .null

section

variable {fields : List (String × Json)} {name : String} {v : Json}

/-! ## Fields -/

theorem field?_eq_lookup (name : String) : ∀ fields : List (String × Json),
    (field? name fields).map Subtype.val = fields.lookup name
  | [] => rfl
  | (n, v) :: rest => by
    rw [field?, List.lookup_cons]
    by_cases h : n = name
    · rw [if_pos h, beq_iff_eq.2 h.symm]
      rfl
    · rw [if_neg h, beq_eq_false_iff_ne.2 (Ne.symm h), Option.map_map, ← field?_eq_lookup name rest]
      rfl

theorem named_of_lookup (h : fields.lookup name = some v) : named name fields = v := by
  rw [named, h, Option.getD_some]

theorem optional_eq_named : Tree.optional name fields = named name fields := by
  rw [named, ← field?_eq_lookup, Tree.optional]
  cases field? name fields <;> rfl

theorem optionalTree_eq_named : (Tree.optionalTree name fields).1 = named name fields := by
  rw [named, ← field?_eq_lookup, Tree.optionalTree]
  split <;> simp_all

theorem require_of_lookup (h : fields.lookup name = some v) :
    ∃ hlt, Tree.require name fields = .ok ⟨v, hlt⟩ := by
  rw [← field?_eq_lookup] at h
  obtain ⟨⟨w, hlt⟩, hw, rfl⟩ := Option.map_eq_some_iff.1 h
  exact ⟨hlt, by rw [Tree.require, hw]⟩

end

end Json

open Json (named)

/-- The position as it is stored. -/
def Position.stored (p : Position) : Stored.Position :=
  ⟨.ofInt p.index, .ofInt p.line, .ofInt p.column, p.file⟩

/-- The branches that a list stands for, as far as evaluation is given for their tokens. -/
def Branches.decode (file : String) (items : List Json) : Except Tree.Undecoded Branches :=
  Tree.settled settle? (Tree.readBranches file items)

namespace Tree

theorem settled_eq_ok {α β : Type} {settle? : α → Option β} {x : Decoded α} {b : β} :
    settled settle? x = .ok b ↔ ∃ a, x = .ok a ∧ settle? a = some b := by
  cases x with
  | error f => simp [settled]
  | ok a => cases h : settle? a <;> simp [settled, h]

/-! ## Tokens -/

theorem datum?_toJson (d : Datum) : d.toJson.datum? = some d := by cases d <;> rfl

theorem settle?_stored (o : Option Position) :
    (o.map Position.stored).mapM Stored.Position.settle? = some o := by
  cases o <;> rfl

theorem completeStop_stored (start stop : Option Position) :
    completeStop (start.map Position.stored) (stop.map Position.stored) =
      .ok ((Span.completed ⟨start, stop⟩).stop.map Position.stored) := by
  cases start <;> cases stop <;> rfl

theorem make_completed (kind : Kind) (value : Datum) (start stop : Option Position) :
    Token.make kind value ⟨start, (Span.completed ⟨start, stop⟩).stop⟩ =
      .make kind value ⟨start, stop⟩ := by
  cases start <;> cases stop <;> rfl

section

variable {file : String} {fields : List (String × Json)}

theorem decodeToken_object {kind : Json} {label value : Datum} {start stop : Option Position}
    (hkind : fields.lookup "tok" = some kind) (hlabel : kind.datum? = some label)
    (hvalue : (named "value" fields).datum? = some value)
    (hstart : readPosition file (named "start" fields) = .ok (start.map Position.stored))
    (hstop : readPosition file (named "end" fields) = .ok (stop.map Position.stored)) :
    decodeToken file (.object fields) = .ok (.make (.ofLabel label) value ⟨start, stop⟩) := by
  obtain ⟨hlt, hrequire⟩ := Json.require_of_lookup hkind
  refine settled_eq_ok.2 ⟨⟨kind, named "value" fields, start.map Position.stored,
    (Span.completed ⟨start, stop⟩).stop.map Position.stored⟩, ?_, ?_⟩
  · simp only [readToken, hrequire, Json.optional_eq_named, hstart, hstop, completeStop_stored,
      bind, Except.bind, pure, Except.pure]
  · simp only [Stored.Token.settle?, hlabel, hvalue, settle?_stored, make_completed, bind,
      Option.bind, pure]

/-! ## Trees -/

theorem optional_type {form : Json} (h : fields.lookup "type" = some form) :
    optional "type" fields = form := by
  rw [Json.optional_eq_named, Json.named_of_lookup h]

end

/-- What a value stands for, if its parts stand for what they do: one rule for each form. -/
inductive DecodeRule (file : String) : Json → Tree → Prop where
  | absent : DecodeRule file .null .absent
  | literal {fields : List (String × Json)} {v : Json} {t : Token}
      (hform : fields.lookup "type" = some (.text "Literal"))
      (hv : fields.lookup "token" = some v) (ht : decodeToken file v = .ok t) :
      DecodeRule file (.object fields) (.literal t)
  | ident {fields : List (String × Json)} {v : Json} {t : Token}
      (hform : fields.lookup "type" = some (.text "Ident"))
      (hv : fields.lookup "token" = some v) (ht : decodeToken file v = .ok t) :
      DecodeRule file (.object fields) (.ident t)
  | assign {fields : List (String × Json)} {v w : Json} {name : Token} {value : Tree}
      (hform : fields.lookup "type" = some (.text "Assign"))
      (hv : fields.lookup "name_tok" = some v) (hw : fields.lookup "value" = some w)
      (hname : decodeToken file v = .ok name) (hvalue : decode file w = .ok value) :
      DecodeRule file (.object fields) (.assign name value)
  | unary {fields : List (String × Json)} {v w : Json} {op : Token} {operand : Tree}
      (hform : fields.lookup "type" = some (.text "UnaryOp"))
      (hv : fields.lookup "op_tok" = some v) (hw : fields.lookup "operand" = some w)
      (hop : decodeToken file v = .ok op) (hoperand : decode file w = .ok operand) :
      DecodeRule file (.object fields) (.unary op operand)
  | binary {fields : List (String × Json)} {v w u : Json} {op : Token} {left right : Tree}
      (hform : fields.lookup "type" = some (.text "BinaryOp"))
      (hv : fields.lookup "op_tok" = some v) (hw : fields.lookup "left" = some w)
      (hu : fields.lookup "right" = some u) (hop : decodeToken file v = .ok op)
      (hleft : decode file w = .ok left) (hright : decode file u = .ok right) :
      DecodeRule file (.object fields) (.binary op left right)
  | conditional {fields : List (String × Json)} {items : List Json} {branches : Branches}
      {otherwise : Tree} (hform : fields.lookup "type" = some (.text "IfExpr"))
      (hitems : fields.lookup "cases" = some (.list items))
      (hbranches : Branches.decode file items = .ok branches)
      (hotherwise : decode file (named "else_case" fields) = .ok otherwise) :
      DecodeRule file (.object fields) (.conditional branches otherwise)
  | forLoop {fields : List (String × Json)} {v w u x : Json} {name : Token}
      {first last stride body : Tree} (hform : fields.lookup "type" = some (.text "ForExpr"))
      (hv : fields.lookup "var_name_tok" = some v) (hw : fields.lookup "start" = some w)
      (hu : fields.lookup "end" = some u) (hx : fields.lookup "body" = some x)
      (hname : decodeToken file v = .ok name) (hfirst : decode file w = .ok first)
      (hlast : decode file u = .ok last)
      (hstride : decode file (named "step" fields) = .ok stride)
      (hbody : decode file x = .ok body) :
      DecodeRule file (.object fields) (.forLoop name first last stride body)
  | whileLoop {fields : List (String × Json)} {v w : Json} {condition body : Tree}
      (hform : fields.lookup "type" = some (.text "WhileExpr"))
      (hv : fields.lookup "condition" = some v) (hw : fields.lookup "body" = some w)
      (hcondition : decode file v = .ok condition) (hbody : decode file w = .ok body) :
      DecodeRule file (.object fields) (.whileLoop condition body)

theorem DecodeRule.decode {file : String} {v : Json} {t : Tree} (h : DecodeRule file v t) :
    Tree.decode file v = .ok t := by
  cases h with
  | absent => exact settled_eq_ok.2 ⟨.absent, by rw [read], by rw [settle?]⟩
  | literal hform hv ht =>
    obtain ⟨_, hv⟩ := Json.require_of_lookup hv
    obtain ⟨s, hs, hst⟩ := settled_eq_ok.1 ht
    refine settled_eq_ok.2 ⟨.literal s, ?_, ?_⟩
    · simp only [read, optional_type hform, hv, hs, bind, Except.bind, pure, Except.pure]
    · simp only [settle?, hst, bind, Option.bind, pure]
  | ident hform hv ht =>
    obtain ⟨_, hv⟩ := Json.require_of_lookup hv
    obtain ⟨s, hs, hst⟩ := settled_eq_ok.1 ht
    refine settled_eq_ok.2 ⟨.ident s, ?_, ?_⟩
    · simp only [read, optional_type hform, hv, hs, bind, Except.bind, pure, Except.pure]
    · simp only [settle?, hst, bind, Option.bind, pure]
  | assign hform hv hw hname hvalue =>
    obtain ⟨_, hv⟩ := Json.require_of_lookup hv
    obtain ⟨_, hw⟩ := Json.require_of_lookup hw
    obtain ⟨s, hs, hst⟩ := settled_eq_ok.1 hname
    obtain ⟨r, hr, hrt⟩ := settled_eq_ok.1 hvalue
    refine settled_eq_ok.2 ⟨.assign s r, ?_, ?_⟩
    · simp only [read, optional_type hform, hv, hw, hs, hr, bind, Except.bind, pure, Except.pure]
    · simp only [settle?, hst, hrt, bind, Option.bind, pure]
  | unary hform hv hw hop hoperand =>
    obtain ⟨_, hv⟩ := Json.require_of_lookup hv
    obtain ⟨_, hw⟩ := Json.require_of_lookup hw
    obtain ⟨s, hs, hst⟩ := settled_eq_ok.1 hop
    obtain ⟨r, hr, hrt⟩ := settled_eq_ok.1 hoperand
    refine settled_eq_ok.2 ⟨.unary s r, ?_, ?_⟩
    · simp only [read, optional_type hform, hv, hw, hs, hr, bind, Except.bind, pure, Except.pure]
    · simp only [settle?, hst, hrt, bind, Option.bind, pure]
  | binary hform hv hw hu hop hleft hright =>
    obtain ⟨_, hv⟩ := Json.require_of_lookup hv
    obtain ⟨_, hw⟩ := Json.require_of_lookup hw
    obtain ⟨_, hu⟩ := Json.require_of_lookup hu
    obtain ⟨s, hs, hst⟩ := settled_eq_ok.1 hop
    obtain ⟨l, hl, hlt⟩ := settled_eq_ok.1 hleft
    obtain ⟨r, hr, hrt⟩ := settled_eq_ok.1 hright
    refine settled_eq_ok.2 ⟨.binary s l r, ?_, ?_⟩
    · simp only [read, optional_type hform, hv, hw, hu, hs, hl, hr, bind, Except.bind, pure,
        Except.pure]
    · simp only [settle?, hst, hlt, hrt, bind, Option.bind, pure]
  | conditional hform hitems hbranches hotherwise =>
    obtain ⟨_, hitems⟩ := Json.require_of_lookup hitems
    obtain ⟨b, hb, hbt⟩ := settled_eq_ok.1 hbranches
    obtain ⟨o, ho, hot⟩ := settled_eq_ok.1 hotherwise
    refine settled_eq_ok.2 ⟨.conditional b o, ?_, ?_⟩
    · simp only [read, optional_type hform, hitems, hb, Json.optionalTree_eq_named, ho, bind,
        Except.bind, pure, Except.pure]
    · simp only [settle?, hbt, hot, bind, Option.bind, pure]
  | forLoop hform hv hw hu hx hname hfirst hlast hstride hbody =>
    obtain ⟨_, hv⟩ := Json.require_of_lookup hv
    obtain ⟨_, hw⟩ := Json.require_of_lookup hw
    obtain ⟨_, hu⟩ := Json.require_of_lookup hu
    obtain ⟨_, hx⟩ := Json.require_of_lookup hx
    obtain ⟨s, hs, hst⟩ := settled_eq_ok.1 hname
    obtain ⟨f, hf, hft⟩ := settled_eq_ok.1 hfirst
    obtain ⟨l, hl, hlt⟩ := settled_eq_ok.1 hlast
    obtain ⟨r, hr, hrt⟩ := settled_eq_ok.1 hstride
    obtain ⟨b, hb, hbt⟩ := settled_eq_ok.1 hbody
    refine settled_eq_ok.2 ⟨.forLoop s f l r b, ?_, ?_⟩
    · simp only [read, optional_type hform, hv, hw, hu, hx, hs, hf, hl, Json.optionalTree_eq_named,
        hr, hb, bind, Except.bind, pure, Except.pure]
    · simp only [settle?, hst, hft, hlt, hrt, hbt, bind, Option.bind, pure]
  | whileLoop hform hv hw hcondition hbody =>
    obtain ⟨_, hv⟩ := Json.require_of_lookup hv
    obtain ⟨_, hw⟩ := Json.require_of_lookup hw
    obtain ⟨c, hc, hct⟩ := settled_eq_ok.1 hcondition
    obtain ⟨b, hb, hbt⟩ := settled_eq_ok.1 hbody
    refine settled_eq_ok.2 ⟨.whileLoop c b, ?_, ?_⟩
    · simp only [read, optional_type hform, hv, hw, hc, hb, bind, Except.bind, pure, Except.pure]
    · simp only [settle?, hct, hbt, bind, Option.bind, pure]

/-! ## Branches -/

section

variable {file : String}

theorem decode_nil : Branches.decode file [] = .ok .nil :=
  settled_eq_ok.2 ⟨.nil, by rw [readBranches], by rw [Branches.settle?]⟩

theorem decode_cons {v w : Json} {items : List Json} {condition body : Tree} {rest : Branches}
    (hcondition : decode file v = .ok condition) (hbody : decode file w = .ok body)
    (hrest : Branches.decode file items = .ok rest) :
    Branches.decode file (.list [v, w] :: items) = .ok (.cons condition body rest) := by
  obtain ⟨c, hc, hct⟩ := settled_eq_ok.1 hcondition
  obtain ⟨b, hb, hbt⟩ := settled_eq_ok.1 hbody
  obtain ⟨r, hr, hrt⟩ := settled_eq_ok.1 hrest
  refine settled_eq_ok.2 ⟨.cons c b r, ?_, ?_⟩
  · simp only [readBranches, hc, hb, hr, bind, Except.bind, pure, Except.pure]
  · simp only [Branches.settle?, hct, hbt, hrt, bind, Option.bind, pure]

end

end Tree

end Reckoner
