import ItemQuery.Proofs.Aml.Ids
import ItemQuery.Proofs.OData.Ids
import ItemQuery.Proofs.Sql.Ids
import ItemQuery.Proofs.StoredQuery.Ids

/-! The ids that tables ask for, in each format. What is written for a query is not what is written with a field of a
    table cleared: ids and lists of ids are shown everywhere, ids of types in SQL, and in AML where the table has an
    item. -/

namespace ItemQuery

open Query

/-- The formats of what a query selects. -/
inductive Format where
  | sql (dialect : Dialect)
  | aml
  | odata
  | stored (refIds : List String)

namespace Format

/-- What is written, if anything is. -/
def render (ctx : Context) (q : Query) : Format → Result (Option String)
  | sql dialect => Sql.renderWhere ctx q dialect
  | aml => (q.toAml ctx).map some
  | odata => q.toODataFilter ctx
  | stored refIds => (q.toStoredQuery ctx refIds).map some

/-- Where the format has a place for the field of the table. -/
def Carries (ctx : Context) (q : Query) (t : TableId) (field : IdField) : Format → Prop
  | sql _ => True
  | aml => field = .typeId → Aml.ComesUp ctx q t
  | odata | stored _ => field ≠ .typeId

/-- No id that a table asks for is dropped where the format has a place for it. -/
theorem render_without_ne {q : Query} (hforest : q.Forest) {t : TableId} (ht : t ∈ q.walk) {item : QueryItem}
    (hitem : q.get? t = some item) {field : IdField} (hasks : item.asks field = true) {ctx : Context} {format : Format}
    (hcarries : format.Carries ctx q t field) {out : Option String} (hout : format.render ctx q = .ok out) :
    format.render ctx (q.without t field) ≠ .ok out := by
  have halike := q.alike_without t field
  have hloses := loses_without hitem hasks
  cases format with
  | sql dialect => exact Sql.renderWhere_ne hforest.rooted halike hloses ht hout
  | odata => exact OData.toODataFilter_ne hforest.rooted halike hcarries hloses ht hout
  | aml =>
    obtain ⟨text, htext, rfl⟩ := Result.map_eq_ok.mp hout
    have hcomes : Aml.ComesUp ctx q t := by
      by_cases hfield : field = .typeId
      · exact hcarries hfield
      · exact Aml.comesUp_of_asks hforest ht hitem hasks hfield htext
    intro hout'
    obtain ⟨_, htext', ⟨⟩⟩ := Result.map_eq_ok.mp hout'
    exact Aml.toAml_ne hforest halike hloses hcomes htext htext'
  | stored refIds =>
    obtain ⟨text, htext, rfl⟩ := Result.map_eq_ok.mp hout
    intro hout'
    obtain ⟨_, htext', ⟨⟩⟩ := Result.map_eq_ok.mp hout'
    exact StoredQuery.toStoredQuery_ne halike hcarries hloses ht htext htext'

/-- Parts with their owners. -/
def partsOf (owner : QueryItem) : Query :=
  ((ofItem { typeName := some "Part" }).after (.addTable owner)).after
    (.addJoin ⟨⟨0, 0⟩, ⟨1, 0⟩, .inner, .oneToOne, "owner", "id"⟩)

theorem forest_partsOf {owner : QueryItem} (howner : owner.joins = []) : (partsOf owner).Forest := by
  have hpart : (ofItem { typeName := some "Part" }).Kept := kept_ofItem rfl
  have hboth : ((ofItem { typeName := some "Part" }).after (.addTable owner)).Kept := hpart.after howner
  exact (hboth.after (c := .addJoin _) trivial).rooted.forest

/-- Owners of a type that are listed. -/
def listedUsers : QueryItem :=
  { typeName := some "User", typeId := some "B", idList := ["1", "2"] }

theorem render_without_ne_listedUsers :
    (partsOf listedUsers).Forest ∧ ⟨1, 0⟩ ∈ (partsOf listedUsers).walk ∧
      (partsOf listedUsers).get? ⟨1, 0⟩ = some listedUsers ∧
      (∃ out, aml.render {} (partsOf listedUsers) = .ok out ∧
        aml.render {} ((partsOf listedUsers).without ⟨1, 0⟩ .typeId) ≠ .ok out) ∧
      ∃ out, odata.render {} (partsOf listedUsers) = .ok out ∧
        odata.render {} ((partsOf listedUsers).without ⟨1, 0⟩ .idList) ≠ .ok out := by
  have hforest : (partsOf listedUsers).Forest := forest_partsOf rfl
  have hwalk : ⟨1, 0⟩ ∈ (partsOf listedUsers).walk := by decide +kernel
  have hlist : listedUsers.asks .idList = true := rfl
  have haml : Query.toAml {} (partsOf listedUsers) = .ok ("<Item type=\"Part\" action=\"get\"><owner>"
      ++ "<Item type=\"User\" action=\"get\" idlist=\"1,2\" typeId=\"B\"/></owner></Item>") :=
    Result.toOption_eq_some.mp (by decide +kernel)
  have hodata : odata.render {} (partsOf listedUsers) = .ok (some "(owner/id eq '1' or owner/id eq '2')") :=
    Result.toOption_eq_some.mp (by decide +kernel)
  have hcomes : aml.Carries {} (partsOf listedUsers) ⟨1, 0⟩ .typeId := fun _ =>
    Aml.comesUp_of_asks hforest hwalk rfl hlist nofun haml
  have hcarries : odata.Carries {} (partsOf listedUsers) ⟨1, 0⟩ .idList := nofun
  refine ⟨hforest, hwalk, rfl, ⟨_, congrArg (Except.map some) haml, ?_⟩, _, hodata, ?_⟩
  · exact render_without_ne hforest hwalk rfl rfl hcomes (congrArg (Except.map some) haml)
  · exact render_without_ne hforest hwalk rfl hlist hcarries hodata

/-- Owners of a type. -/
def typedUsers : QueryItem :=
  { typeName := some "User", typeId := some "B" }

/-- The type is the only criterion here, but no text of AML and no filter of OData tells it. -/
theorem render_without_typedUsers :
    (partsOf typedUsers).Forest ∧ ⟨1, 0⟩ ∈ (partsOf typedUsers).walk ∧
      (partsOf typedUsers).get? ⟨1, 0⟩ = some typedUsers ∧
      ∀ format ∈ [aml, odata], ∃ out, format.render {} (partsOf typedUsers) = .ok out ∧
        format.render {} ((partsOf typedUsers).without ⟨1, 0⟩ .typeId) = .ok out := by
  refine ⟨forest_partsOf rfl, by decide +kernel, rfl, ?_⟩
  simp only [List.forall_mem_cons, ← Result.toOption_eq_some]
  refine ⟨⟨some "<Item type=\"Part\" action=\"get\"/>", ?_, ?_⟩, ⟨none, ?_, ?_⟩, nofun⟩ <;> decide +kernel

end Format
end ItemQuery
