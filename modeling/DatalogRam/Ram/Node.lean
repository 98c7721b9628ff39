import DatalogRam.Operator
import DatalogRam.Decimal.Binary64

/-!
# One layer of machine code

Machine code has four sorts: expressions give values, conditions are tested, operations nest into queries, and
statements control when queries run. A node is one layer of a sort, with references where its children are.
The references are numbers in an arena (`DatalogRam.Ram.Arena`) and whole trees elsewhere.
-/

namespace DatalogRam.Ram

/-- One layer of an expression. -/
inductive ExprNode (ρ : Type) where
  | signed (value : Int64)
  | unsigned (value : UInt64)
  | float (value : Binary64)
  /-- A column of the row that an enclosing operation binds to `tuple`. -/
  | element (tuple column : Nat)
  /-- An argument of the enclosing subroutine. -/
  | argument (index : Nat)
  /-- Any value, in an existence check. -/
  | undefined
  | operator (op : Operator) (args : List ρ)
  | external (name : String) (args : List ρ)
  | pack (args : List ρ)
  | autoIncrement
  deriving DecidableEq, Repr

/-- One layer of a condition; `ε` refers to expressions. -/
inductive CondNode (ε κ : Type) where
  | true
  | false
  | both (left right : κ)
  | not (condition : κ)
  | compare (op : Comparison) (left right : ε)
  /-- Whether a row of the relation has the given values; an undefined one matches anything. -/
  | holds (relation : String) (values : List ε)
  | isEmpty (relation : String)
  deriving DecidableEq, Repr

/-- One layer of an operation; `ε` refers to expressions and `κ` to conditions. -/
inductive OpNode (ε κ ω : Type) where
  /-- Bind the rows of a relation one after another. -/
  | scan (relation : String) (tuple : Nat) (nested : ω)
  | filter (condition : κ) (nested : ω)
  /-- Bind the rows one after another and fold the value over those that satisfy the condition; then bind
  the result. -/
  | aggregate (relation : String) (tuple : Nat) (function : Aggregation) (value : Option ε)
      (condition : κ) (nested : ω)
  /-- Insert a row. -/
  | insert (relation : String) (values : List ε)
  /-- Leave the subroutine with a row. -/
  | answer (values : List ε)
  deriving DecidableEq, Repr

/-- One layer of a statement; `κ` refers to conditions and `ω` to operations. -/
inductive StmtNode (κ ω σ : Type) where
  | sequence (statements : List σ)
  | query (operation : ω)
  | loop (body : σ)
  /-- Leave the innermost loop if the condition holds. -/
  | exit (condition : κ)
  | clear (relation : String)
  | swap (left right : String)
  /-- Add the rows of `source` to `target`. -/
  | merge (source target : String)
  | debug (message : String) (statement : σ)
  deriving DecidableEq, Repr

namespace ExprNode

variable {ρ τ : Type}

def children : ExprNode ρ → List ρ
  | operator _ args => args
  | external _ args => args
  | pack args => args
  | _ => []

def map (f : ρ → τ) : ExprNode ρ → ExprNode τ
  | signed value => signed value
  | unsigned value => unsigned value
  | float value => float value
  | element tuple column => element tuple column
  | argument index => argument index
  | undefined => undefined
  | operator op args => operator op (args.map f)
  | external name args => external name (args.map f)
  | pack args => pack (args.map f)
  | autoIncrement => autoIncrement

end ExprNode

namespace CondNode

variable {ε κ ε' κ' : Type}

def map (f : ε → ε') (g : κ → κ') : CondNode ε κ → CondNode ε' κ'
  | true => true
  | false => false
  | both left right => both (g left) (g right)
  | not condition => not (g condition)
  | compare op left right => compare op (f left) (f right)
  | holds relation values => holds relation (values.map f)
  | isEmpty relation => isEmpty relation

end CondNode

namespace OpNode

variable {ε κ ω ε' κ' ω' : Type}

def map (f : ε → ε') (g : κ → κ') (h : ω → ω') : OpNode ε κ ω → OpNode ε' κ' ω'
  | scan relation tuple nested => scan relation tuple (h nested)
  | filter condition nested => filter (g condition) (h nested)
  | aggregate relation tuple function value condition nested =>
      aggregate relation tuple function (value.map f) (g condition) (h nested)
  | insert relation values => insert relation (values.map f)
  | answer values => answer (values.map f)

end OpNode

namespace StmtNode

variable {κ ω σ κ' ω' σ' : Type}

def map (g : κ → κ') (h : ω → ω') (k : σ → σ') : StmtNode κ ω σ → StmtNode κ' ω' σ'
  | sequence statements => sequence (statements.map k)
  | query operation => query (h operation)
  | loop body => loop (k body)
  | exit condition => exit (g condition)
  | clear relation => clear relation
  | swap left right => swap left right
  | merge source target => merge source target
  | debug message statement => debug message (k statement)

end StmtNode

end DatalogRam.Ram
