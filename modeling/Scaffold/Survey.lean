import Scaffold.Inheritance
import Scaffold.Roster

/-!
The survey of a catalog: the capabilities of all types, the properties of every model, and the
roster of plans. All of it is settled before any class is described.
-/
namespace Scaffold

structure Survey where
  capabilities : Capabilities
  tables : List PropertyTable
  roster : Roster

namespace Survey

/-- The properties of a model. -/
def propertiesOf (s : Survey) (model : String) : Except Fault PropertyTable :=
  match s.tables.find? (·.model = model) with
  | some t => .ok t
  | none => .error (.unknownModel model)

/-- Plans the targets of a model and enters them. -/
def enterTargets (c : Catalog) (capabilities : Capabilities) (settings : Settings) (model : Decl) :
    List Target → Roster → Except Fault Roster
  | [], roster => .ok roster
  | target :: rest, roster => do
    let plan ← Plan.ofTarget c capabilities settings model target
    let roster ← roster.enter plan
    enterTargets c capabilities settings model rest roster

def surveyModels (c : Catalog) (settings : Settings) : List Decl → Survey → Except Fault Survey
  | [], s => .ok s
  | model :: rest, s => do
    let table ← PropertyTable.ofCatalog c model.name
    let roster ← enterTargets c s.capabilities settings model model.targets s.roster
    surveyModels c settings rest ⟨s.capabilities, s.tables ++ [table], roster⟩

def ofCatalog (c : Catalog) (settings : Settings) : Except Fault Survey :=
  surveyModels c settings c.models ⟨Capabilities.ofCatalog c, [], .empty⟩

end Survey

end Scaffold
