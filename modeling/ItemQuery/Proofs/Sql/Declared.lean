import ItemQuery.Proofs.Aml.Lists
import ItemQuery.Proofs.Sql.Scoping
import ItemQuery.Proofs.StoredQuery.Lists

/-! Statements of queries that were read: no alias in them is undeclared, and no table is declared twice. -/

namespace ItemQuery.Sql

open Relation

/-- A statement in which nothing undeclared is named. However the tables are called, it is the same text with their
    names in it, and its `from` clauses declare the tables that are reached from the root, each of them once. -/
theorem exists_declared_render {source : String} {q : Query}
    (hq : Aml.parse source = .ok q ∨ StoredQuery.parse source = .ok q) (ctx : Context) (dialect : Dialect) {shown : String}
    (h : render ctx q dialect SqlClause.all = .ok shown) :
    ∃ tables statement names, Declared tables statement ∧
      (∀ names, Writer.statement ⟨ctx, q, dialect, names⟩ SqlClause.all = .ok (statement names)) ∧
      Aliases.ofQuery ctx q = .ok names ∧ statement names = shown ∧
      tables.Nodup ∧ ∀ t, t ∈ tables ↔ ReflTransGen q.Joined q.root t := by
  have hlocal : q.Local := by
    rcases hq with hq | hq
    · obtain ⟨events, hevents⟩ := Aml.exists_events_of_parse hq
      exact Aml.local_of_ofEvents hevents
    · obtain ⟨document, hdocument⟩ := StoredQuery.exists_ofElement_of_parse hq
      exact StoredQuery.local_of_ofElement hdocument
  obtain ⟨w, hw, hshown⟩ := Result.bind_eq_ok.mp h
  obtain ⟨names, hnames, hw⟩ := Result.bind_eq_ok.mp hw
  cases hw
  have hspelled := Writer.spelled_statement (w := ⟨ctx, q, dialect, names⟩) hlocal
  generalize hall : (fun names' => (Writer.named ⟨ctx, q, dialect, names⟩ names').statement SqlClause.all) =
    outcome at hspelled
  cases hspelled with
  | error err => cases (congrFun hall names).symm.trans hshown
  | @ok statement hstatement =>
    have hok : ∀ names, Writer.statement ⟨ctx, q, dialect, names⟩ SqlClause.all = .ok (statement names) := congrFun hall
    refine ⟨Writer.statementTables q, statement, names, hstatement, hok, hnames, ?_, ?_, fun t => ?_⟩
    · exact Except.ok.inj ((hok names).symm.trans hshown)
    · exact hlocal.rooted.nodup_blocks _ _
    · exact mem_statementTables hlocal.rooted

/-- Parts with their owner, and with a row of their structure. -/
def ownedParts : String :=
  "<Item type='Part' action='get' select='name,owned_by_id(name)' orderBy='cost'>"
    ++ "<owned_by_id><Item type='Identity' action='get'><name>Ann</name></Item></owned_by_id>"
    ++ "<Relationships><Item type='Part BOM' action='get'><quantity>2</quantity></Item></Relationships></Item>"

/-- The statement for them. -/
def ownedPartsStatement : String :=
  "select p.name, p.owned_by_id, i.name from Part p left join Identity i on p.owned_by_id = i.id where i.name = 'Ann'"
    ++ " and exists (select null from Part_BOM pb where pb.source_id = p.id and pb.quantity = 2) order by p.cost"

theorem exists_declared_render_ownedParts :
    ∃ q, Aml.parse ownedParts = .ok q ∧ render {} q .ansi SqlClause.all = .ok ownedPartsStatement ∧
      ∃ tables statement names, Declared tables statement ∧
        (∀ names, Writer.statement ⟨{}, q, .ansi, names⟩ SqlClause.all = .ok (statement names)) ∧
        Aliases.ofQuery {} q = .ok names ∧ statement names = ownedPartsStatement ∧
        tables.Nodup ∧ ∀ t, t ∈ tables ↔ ReflTransGen q.Joined q.root t := by
  have hrun : (Aml.parse ownedParts >>= fun q => render {} q .ansi SqlClause.all) = .ok ownedPartsStatement :=
    Result.toOption_eq_some.mp (by decide +kernel)
  obtain ⟨q, hq, hshown⟩ := Result.bind_eq_ok.mp hrun
  exact ⟨q, hq, hshown, exists_declared_render (.inl hq) {} .ansi hshown⟩

end ItemQuery.Sql
