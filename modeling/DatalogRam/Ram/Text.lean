import DatalogRam.Ram.Tree
import DatalogRam.Decimal.Layout

/-!
# The text of machine code

Expressions and conditions are written on one line. Operations and statements take one or more lines, each
indented by one blank for every level of nesting.
-/

namespace DatalogRam.Ram

/-- Doubles in machine code keep a fractional digit. Those of sixteen or more digits before the point, or with
four or more zeros behind it, have an exponent. -/
def codeLayout : Decimal.Layout where
  positional := some (-4, 15)
  wholeFraction := true
  exponentPlus := false
  tie := .up

/-- The arithmetic symbols stand between two operands, every other operator before a list. -/
def operatorText (op : Operator) : List String → String
  | [left, right] =>
      if op.isBinarySymbol then "(" ++ left ++ op.symbol ++ right ++ ")"
      else op.symbol ++ "(" ++ left ++ "," ++ right ++ ")"
  | texts => op.symbol ++ "(" ++ ",".intercalate texts ++ ")"

/-- The name of the row that is bound to a number. -/
def tupleText (tuple : Nat) : String :=
  "t" ++ toString tuple

mutual

def Expr.text : Expr → String
  | .signed value => toString value.toInt
  | .unsigned value => toString value.toNat ++ "u"
  | .float value => codeLayout.render value
  | .element tuple column => tupleText tuple ++ "." ++ toString column
  | .argument index => "argument(" ++ toString index ++ ")"
  | .undefined => "_"
  | .operator op args => operatorText op (Expr.texts args)
  | .external name args => "@" ++ name ++ "(" ++ ",".intercalate (Expr.texts args) ++ ")"
  | .pack args => "[" ++ ",".intercalate (Expr.texts args) ++ "]"
  | .autoIncrement => "autoinc()"

def Expr.texts : List Expr → List String
  | [] => []
  | expr :: exprs => expr.text :: Expr.texts exprs

end

def Cond.text : Cond → String
  | .true => "true"
  | .false => "false"
  | .both left right => left.text ++ " AND " ++ right.text
  | .not condition => "(NOT " ++ condition.text ++ ")"
  | .compare op left right => "(" ++ left.text ++ " " ++ op.symbol ++ " " ++ right.text ++ ")"
  | .holds relation values => "(" ++ ",".intercalate (Expr.texts values) ++ ") IN " ++ relation
  | .isEmpty relation => "ISEMPTY(" ++ relation ++ ")"

/-- A line of text under a number of enclosing levels. -/
def indented (level : Nat) (text : String) : String :=
  String.ofList (List.replicate level ' ') ++ text

/-- The value that an aggregate folds, if it folds one. -/
def foldedText : Option Expr → String
  | none => ""
  | some value => value.text ++ " "

def Op.lines (level : Nat) : Op → List String
  | .scan relation tuple nested =>
      indented level ("FOR " ++ tupleText tuple ++ " IN " ++ relation) :: nested.lines (level + 1)
  | .filter condition nested => indented level ("IF " ++ condition.text) :: nested.lines (level + 1)
  | .aggregate relation tuple function value condition nested =>
      indented level
          (tupleText tuple ++ ".0 = " ++ function.keyword ++ " " ++ foldedText value ++ "FOR ALL " ++
            tupleText tuple ++ " IN " ++ relation ++ " WHERE " ++ condition.text) ::
        nested.lines (level + 1)
  | .insert relation values =>
      [indented level ("INSERT (" ++ ", ".intercalate (Expr.texts values) ++ ") INTO " ++ relation)]
  | .answer values => [indented level ("RETURN (" ++ ", ".intercalate (Expr.texts values) ++ ")")]

/-- A text with a backslash before every quote. -/
def quoteEscaped (text : String) : String :=
  String.ofList (text.toList.flatMap fun letter => if letter = '"' then ['\\', '"'] else [letter])

mutual

def Stmt.lines (level : Nat) : Stmt → List String
  | .sequence statements => Stmt.linesOfAll level statements
  | .query operation =>
      indented level "QUERY" :: operation.lines (level + 1) ++ [indented level "END QUERY"]
  | .loop body => indented level "LOOP" :: body.lines (level + 1) ++ [indented level "END LOOP"]
  | .exit condition => [indented level ("EXIT " ++ condition.text)]
  | .clear relation => [indented level ("CLEAR " ++ relation)]
  | .swap left right => [indented level ("SWAP (" ++ left ++ ", " ++ right ++ ")")]
  | .merge source target => [indented level ("MERGE EXTEND " ++ target ++ " WITH " ++ source)]
  | .debug message statement =>
      indented level ("DEBUG \"" ++ quoteEscaped message ++ "\"") :: statement.lines (level + 1) ++
        [indented level "END DEBUG"]

def Stmt.linesOfAll (level : Nat) : List Stmt → List String
  | [] => []
  | statement :: statements => statement.lines level ++ Stmt.linesOfAll level statements

end

/-- Lines as one text, each with its end of line. -/
def ofLines (lines : List String) : String :=
  String.join (lines.map (· ++ "\n"))

def Stmt.text (statement : Stmt) : String :=
  ofLines (statement.lines 0)

end DatalogRam.Ram
