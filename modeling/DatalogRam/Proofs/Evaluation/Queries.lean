import DatalogRam.Proofs.Evaluation.Clauses
import DatalogRam.Proofs.Lowering.StratumQueries
import DatalogRam.Proofs.Machine.Computes

/-!
# Queries one after another

Several queries that insert into the same kind of tables, and do not read what the others insert, together add
what each of them adds on its own.
-/

namespace DatalogRam.Lowering

open Machine Ram

/-- Contents with more rows in one part. -/
def Contents.add (contents : Contents) (part : Part) (more : Facts) : Contents :=
  fun other name => if other = part then contents other name ∪ more name else contents other name

theorem Contents.add_same (contents : Contents) (part : Part) (more : Facts) :
    contents.add part more part = (contents part).union more := by
  funext name
  rw [Contents.add, if_pos rfl]
  rfl

theorem Contents.add_other (contents : Contents) {part other : Part} (more : Facts) (different : other ≠ part) :
    contents.add part more other = contents other := by
  funext name
  rw [Contents.add, if_neg different]

/-- What queries add to the contents when each of them runs on its own. -/
def addedBy (ordinal : String → Int64) (queries : List Query) (contents : Contents) : Facts := fun name =>
  {row | ∃ query ∈ queries, query.clause.head.relation = name ∧
    row ∈ query.version.adds ordinal query.clause contents}

variable {ordinal : String → Int64} {plan : Plan} {tracked : Part → Name → Prop}

/-- A query that can run: it has been lowered from a simple clause, and does not read what it inserts. -/
structure Runnable (plan : Plan) (tracked : Part → Name → Prop) (part : Part) (names : List Name)
    (query : Query) : Prop where
  simple : query.clause.Simple
  isFact : query.clause.isFact = true → query.version = .complete
  declared : Clause.Declared plan.program query.clause
  separate : Separate query.version query.clause
  follows : Follows tracked query.clause query.version
  part : query.version.part = part
  head : query.clause.head.relation ∈ names

/-- What a query adds does not depend on what is inserted into the part for some names. -/
def Independent (ordinal : String → Int64) (part : Part) (names : List Name) (query : Query) : Prop :=
  ∀ (contents : Contents) (more : Facts), (∀ name ∉ names, more name = ∅) →
    query.version.adds ordinal query.clause (contents.add part more) =
      query.version.adds ordinal query.clause contents

theorem mem_addedBy_singleton {query : Query} {contents : Contents} {name : Name} {row : Row} :
    row ∈ addedBy ordinal [query] contents name ↔
      query.clause.head.relation = name ∧ row ∈ query.version.adds ordinal query.clause contents := by
  simp [addedBy]

/-- One query changes the part into which it inserts, for its head. -/
theorem add_addedBy_singleton (query : Query) (contents : Contents) :
    contents.add query.version.part (addedBy ordinal [query] contents) =
      contents.set query.version.part query.clause.head.relation
        (contents query.version.part query.clause.head.relation ∪
          query.version.adds ordinal query.clause contents) := by
  funext other name
  by_cases same : other = query.version.part ∧ name = query.clause.head.relation
  · obtain ⟨rfl, rfl⟩ := same
    simp [Contents.set, Contents.add, addedBy]
  · rw [Contents.set_other _ _ same, Contents.add]
    split
    · next isPart =>
        have different : query.clause.head.relation ≠ name := fun isName => same ⟨isPart, isName.symm⟩
        simp [addedBy, different]
    · rfl

/-- Independent queries add the same after another one as before it. -/
theorem add_addedBy_cons {part : Part} {names : List Name} {query : Query} {rest : List Query}
    (isHead : query.clause.head.relation ∈ names) (independent : ∀ other ∈ rest, Independent ordinal part names other)
    (contents : Contents) :
    (contents.add part (addedBy ordinal [query] contents)).add part
        (addedBy ordinal rest (contents.add part (addedBy ordinal [query] contents))) =
      contents.add part (addedBy ordinal (query :: rest) contents) := by
  have outside : ∀ name ∉ names, addedBy ordinal [query] contents name = ∅ := by
    intro name notIn
    refine Set.eq_empty_iff_forall_notMem.2 fun row member => notIn ?_
    exact (mem_addedBy_singleton.1 member).1 ▸ isHead
  funext other name
  by_cases isPart : other = part
  · subst isPart
    ext row
    simp only [Contents.add, if_pos, Set.mem_union, mem_addedBy_singleton, or_assoc]
    simp only [addedBy, Set.mem_ofPred_eq, List.mem_cons, exists_eq_or_imp]
    refine or_congr_right (or_congr_right ?_)
    refine exists_congr fun later => and_congr_right fun member => and_congr_right fun _ => ?_
    exact Set.ext_iff.1 (independent later member contents _ outside) row
  · simp only [Contents.add, if_neg isPart]

/-- Queries that do not depend on each other add together what each of them adds. -/
theorem returns_queries (args : Row) (distinct : (tableNames plan.program).Nodup) {part : Part}
    {names : List Name} {queries : List Query} {statements : List Stmt}
    (runnable : ∀ query ∈ queries, Runnable plan tracked part names query)
    (independent : ∀ query ∈ queries, Independent ordinal part names query)
    (codes : queries.mapM (Query.code ordinal plan) = some statements) {start : Store} {contents : Contents}
    (represents : Represents plan.program plan.auxiliary tracked start contents) :
    ∃ final, Represents plan.program plan.auxiliary tracked final
        (contents.add part (addedBy ordinal queries contents)) ∧
      ∀ rounds, Leads (runStmts rounds args statements) start .proceed final := by
  induction queries generalizing statements start contents with
  | nil =>
      cases codes
      refine ⟨start, ?_, fun rounds => Leads.nil start⟩
      have same : contents.add part (addedBy ordinal [] contents) = contents := by
        funext other name
        simp [Contents.add, addedBy]
      rwa [same]
  | cons query rest ih =>
      obtain ⟨statement, others, isCode, areCodes, rfl⟩ := mapM_cons_eq_some codes
      have here := runnable query List.mem_cons_self
      have laterIndependent (other : Query) (member : other ∈ rest) : Independent ordinal part names other :=
        independent other (List.mem_cons_of_mem _ member)
      have ran : ∃ middle, Queried ordinal plan query.clause query.id query.version start middle ∧
          ∀ rounds, Leads (runStmt rounds args statement) start .proceed middle :=
        returns_queried here.simple here.isFact here.separate (represents.shapedAtoms here.declared here.follows)
          (represents.headShaped here.declared here.follows) isCode
      obtain ⟨middle, queried, first⟩ := ran
      have stepped := represents.queried distinct here.simple
        (grounded_of_code here.simple here.isFact isCode) here.declared here.separate here.follows queried
      rw [← add_addedBy_singleton, here.part] at stepped
      obtain ⟨final, isFinal, onward⟩ :=
        ih (fun other member => runnable other (List.mem_cons_of_mem _ member)) laterIndependent areCodes stepped
      refine ⟨final, ?_, fun rounds => (first rounds).cons (onward rounds)⟩
      rwa [add_addedBy_cons here.head laterIndependent] at isFinal

end DatalogRam.Lowering
