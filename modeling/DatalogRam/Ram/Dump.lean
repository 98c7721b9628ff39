import DatalogRam.Json.Document
import DatalogRam.Ram.Program

/-!
# Machine programs as JSON

The document of a program lists the nodes of its arena by sort, in the order of their numbers. A node is
written by the name of its kind: a kind without content as a text, any other as an object with one field.
-/

namespace DatalogRam.Ram

open Json

/-- Doubles in JSON keep a fractional digit, sign positive exponents, and are written positionally for one
place more behind the point than in the text of machine code. -/
def jsonLayout : Decimal.Layout where
  positional := some (-5, 15)
  wholeFraction := true
  exponentPlus := true
  tie := .toEven

/-- A double as a number. JSON has no infinities and no NaN. -/
def floatDocument (value : Binary64) : Document :=
  if value.isFinite then .number (jsonLayout.render value) else .null

def idList (ids : List Nat) : Document :=
  .list (ids.map .ofNat)

def operatorDocument : Operator → Document
  | .add => .string "Add"
  | .sub => .string "Sub"
  | .mul => .string "Mul"
  | .div => .string "Div"
  | .mod => .string "Mod"
  | .neg => .string "Neg"
  | .max => .string "Max"
  | .min => .string "Min"
  | .cat => .string "Cat"
  | .strlen => .string "StrLen"

def comparisonDocument : Comparison → Document
  | .eq => .string "Eq"
  | .ne => .string "Ne"
  | .lt => .string "Lt"
  | .le => .string "Le"
  | .gt => .string "Gt"
  | .ge => .string "Ge"

def aggregationDocument : Aggregation → Document
  | .count => .string "Count"
  | .sum => .string "Sum"
  | .min => .string "Min"
  | .max => .string "Max"
  | .mean => .string "Mean"

def ExprNode.document : ExprNode Nat → Document
  | .signed value => .tagged "SignedConstant" (.ofInt value.toInt)
  | .unsigned value => .tagged "UnsignedConstant" (.ofNat value.toNat)
  | .float value => .tagged "FloatConstant" (floatDocument value)
  | .element tuple column =>
      .tagged "TupleElement" (.object [("tuple", .ofNat tuple), ("element", .ofNat column)])
  | .argument index => .tagged "SubroutineArgument" (.ofNat index)
  | .undefined => .string "UndefValue"
  | .operator op args =>
      .tagged "IntrinsicOperator" (.object [("op", operatorDocument op), ("args", idList args)])
  | .external name args =>
      .tagged "UserDefinedOperator" (.object [("name", .string name), ("args", idList args)])
  | .pack args => .tagged "PackRecord" (idList args)
  | .autoIncrement => .string "AutoIncrement"

def CondNode.document : CondNode Nat Nat → Document
  | .true => .string "True"
  | .false => .string "False"
  | .both left right => .tagged "Conjunction" (idList [left, right])
  | .not condition => .tagged "Negation" (.ofNat condition)
  | .compare op left right =>
      .tagged "Constraint"
        (.object [("op", comparisonDocument op), ("lhs", .ofNat left), ("rhs", .ofNat right)])
  | .holds relation values =>
      .tagged "ExistenceCheck" (.object [("relation", .string relation), ("values", idList values)])
  | .isEmpty relation => .tagged "EmptinessCheck" (.object [("relation", .string relation)])

def OpNode.document : OpNode Nat Nat Nat → Document
  | .scan relation tuple nested =>
      .tagged "Scan"
        (.object [("relation", .string relation), ("tuple", .ofNat tuple), ("nested", .ofNat nested)])
  | .filter condition nested =>
      .tagged "Filter" (.object [("condition", .ofNat condition), ("nested", .ofNat nested)])
  | .aggregate relation tuple function value condition nested =>
      .tagged "Aggregate"
        (.object
          [("relation", .string relation), ("tuple", .ofNat tuple),
            ("function", aggregationDocument function), ("expression", value.elim .null .ofNat),
            ("condition", .ofNat condition), ("nested", .ofNat nested)])
  | .insert relation values =>
      .tagged "Project" (.object [("relation", .string relation), ("values", idList values)])
  | .answer values => .tagged "SubroutineReturn" (.object [("values", idList values)])

def StmtNode.document : StmtNode Nat Nat Nat → Document
  | .sequence statements => .tagged "Sequence" (idList statements)
  | .query operation => .tagged "Query" (.ofNat operation)
  | .loop body => .tagged "Loop" (.ofNat body)
  | .exit condition => .tagged "Exit" (.ofNat condition)
  | .clear relation => .tagged "Clear" (.string relation)
  | .swap left right => .tagged "Swap" (.list [.string left, .string right])
  | .merge source target =>
      .tagged "MergeExtend" (.object [("source", .string source), ("target", .string target)])
  | .debug message statement =>
      .tagged "DebugInfo" (.object [("message", .string message), ("statement", .ofNat statement)])

def Arena.document (arena : Arena) : Document :=
  .object
    [("exprs", .list (arena.exprs.toList.map ExprNode.document)),
      ("conds", .list (arena.conds.toList.map CondNode.document)),
      ("ops", .list (arena.ops.toList.map OpNode.document)),
      ("stmts", .list (arena.stmts.toList.map StmtNode.document))]

def stringList (texts : List String) : Document :=
  .list (texts.map .string)

def Table.document (table : Table) : Document :=
  .object
    [("name", .string table.name), ("arity", .ofNat table.arity),
      ("auxiliary_arity", .ofNat table.auxiliary), ("attribute_names", stringList table.columnNames),
      ("attribute_types", stringList table.columnTypes),
      ("representation", .string table.representation.text)]

def Subroutine.document (subroutine : Subroutine) : Document :=
  .object [("body", .ofNat subroutine.body.id), ("parameters", stringList subroutine.parameters)]

def Symbols.document (symbols : Symbols) : Document :=
  .object [("symbols", stringList symbols.toList)]

def Program.document (program : Program) : Document :=
  .object
    [("arena", program.arena.document), ("relations", .list (program.tables.map Table.document)),
      ("main", .ofNat program.main.id),
      ("subroutines",
        .object (program.subroutines.map fun (name, subroutine) => (name, subroutine.document))),
      ("symbols", program.symbols.document)]

end DatalogRam.Ram
