import NameResolution.Name.QualifiedName

/-!
# Type expressions

The types that signatures give to constants, compared by structure and written in signature
syntax.

## Main definitions

* `BaseType` — the built-in type keywords.
* `TypeExpr` — a type expression.
* `TypeExpr.text` — its written form.
-/

namespace NameResolution

/-- The built-in type keywords. -/
inductive BaseType where
  | untyped
  | bool
  | nil
  | void
  | top
  | bottom
  | selfType
  | instanceType
  | classType
deriving DecidableEq, Repr

namespace BaseType

/-- The keyword. -/
def text : BaseType → String
  | untyped => "untyped"
  | bool => "bool"
  | nil => "nil"
  | void => "void"
  | top => "top"
  | bottom => "bot"
  | selfType => "self"
  | instanceType => "instance"
  | classType => "class"

/-- All keywords. -/
def all : List BaseType :=
  [untyped, bool, nil, void, top, bottom, selfType, instanceType, classType]

/-- The keyword with this spelling. -/
def ofText? (text : String) : Option BaseType := all.find? (·.text == text)

end BaseType

/-- A type expression. -/
inductive TypeExpr where
  /-- A built-in keyword. -/
  | base (keyword : BaseType)
  /-- The class object itself: the type of a class, module or alias used as a constant. -/
  | singleton (name : QualifiedName)
  /-- A class instance, an interface or a type alias, with its type arguments. -/
  | named (kind : NameKind) (name : QualifiedName) (args : List TypeExpr)
  /-- A type or nil. -/
  | optional (inner : TypeExpr)
  /-- One of several types. -/
  | union (alternatives : List TypeExpr)
  /-- An array of fixed length. -/
  | tuple (items : List TypeExpr)
  /-- A literal, kept as it is written. -/
  | literal (text : String)
deriving Repr, Inhabited

namespace TypeExpr

/-! ## Equality -/

mutual

/-- Equality of type expressions is decidable. -/
def decEq : (s t : TypeExpr) → Decidable (s = t)
  | .base a, .base b =>
    if h : a = b then .isTrue (h ▸ rfl) else .isFalse fun e => h (TypeExpr.base.inj e)
  | .singleton a, .singleton b =>
    if h : a = b then .isTrue (h ▸ rfl) else .isFalse fun e => h (TypeExpr.singleton.inj e)
  | .named k a as, .named l b bs =>
    if hk : k = l then
      if ha : a = b then
        match decEqList as bs with
        | .isTrue h => .isTrue (hk ▸ ha ▸ h ▸ rfl)
        | .isFalse h => .isFalse fun e => h (TypeExpr.named.inj e).2.2
      else .isFalse fun e => ha (TypeExpr.named.inj e).2.1
    else .isFalse fun e => hk (TypeExpr.named.inj e).1
  | .optional a, .optional b =>
    match decEq a b with
    | .isTrue h => .isTrue (h ▸ rfl)
    | .isFalse h => .isFalse fun e => h (TypeExpr.optional.inj e)
  | .union as, .union bs =>
    match decEqList as bs with
    | .isTrue h => .isTrue (h ▸ rfl)
    | .isFalse h => .isFalse fun e => h (TypeExpr.union.inj e)
  | .tuple as, .tuple bs =>
    match decEqList as bs with
    | .isTrue h => .isTrue (h ▸ rfl)
    | .isFalse h => .isFalse fun e => h (TypeExpr.tuple.inj e)
  | .literal a, .literal b =>
    if h : a = b then .isTrue (h ▸ rfl) else .isFalse fun e => h (TypeExpr.literal.inj e)
  | .base _, .singleton _ | .base _, .named .. | .base _, .optional _ | .base _, .union _
  | .base _, .tuple _ | .base _, .literal _
  | .singleton _, .base _ | .singleton _, .named .. | .singleton _, .optional _
  | .singleton _, .union _ | .singleton _, .tuple _ | .singleton _, .literal _
  | .named .., .base _ | .named .., .singleton _ | .named .., .optional _ | .named .., .union _
  | .named .., .tuple _ | .named .., .literal _
  | .optional _, .base _ | .optional _, .singleton _ | .optional _, .named ..
  | .optional _, .union _ | .optional _, .tuple _ | .optional _, .literal _
  | .union _, .base _ | .union _, .singleton _ | .union _, .named .. | .union _, .optional _
  | .union _, .tuple _ | .union _, .literal _
  | .tuple _, .base _ | .tuple _, .singleton _ | .tuple _, .named .. | .tuple _, .optional _
  | .tuple _, .union _ | .tuple _, .literal _
  | .literal _, .base _ | .literal _, .singleton _ | .literal _, .named ..
  | .literal _, .optional _ | .literal _, .union _ | .literal _, .tuple _ =>
    .isFalse nofun

/-- Equality of lists of type expressions is decidable. -/
def decEqList : (ss ts : List TypeExpr) → Decidable (ss = ts)
  | [], [] => .isTrue rfl
  | [], _ :: _ | _ :: _, [] => .isFalse nofun
  | s :: ss, t :: ts =>
    match decEq s t with
    | .isFalse h => .isFalse fun e => h (List.cons.inj e).1
    | .isTrue h =>
      match decEqList ss ts with
      | .isTrue hs => .isTrue (h ▸ hs ▸ rfl)
      | .isFalse hs => .isFalse fun e => hs (List.cons.inj e).2

end

instance : DecidableEq TypeExpr := decEq

/-! ## Written form -/

/-- Whether the expression is a union, which needs parentheses before a postfix mark. -/
def isUnion : TypeExpr → Bool
  | union _ => true
  | _ => false

mutual

/-- The written form. An empty argument list is left out. -/
def text : TypeExpr → String
  | .base keyword => keyword.text
  | .singleton name => "singleton(" ++ name.text ++ ")"
  | .named _ name args =>
    name.text ++ if args.isEmpty then "" else "[" ++ ", ".intercalate (texts args) ++ "]"
  | .optional inner => (if inner.isUnion then "(" ++ inner.text ++ ")" else inner.text) ++ "?"
  | .union alternatives => " | ".intercalate (texts alternatives)
  | .tuple items => "[" ++ ", ".intercalate (texts items) ++ "]"
  | .literal text => text

/-- The written forms of several expressions. -/
def texts : List TypeExpr → List String
  | [] => []
  | t :: ts => t.text :: texts ts

end

instance : ToString TypeExpr := ⟨text⟩

end TypeExpr

end NameResolution
