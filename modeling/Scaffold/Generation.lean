import Scaffold.Catalog.Check
import Scaffold.Classes
import Scaffold.Projection.Walk

/-!
A generation pass over a catalog: check, survey, class descriptions, TypeScript definitions.
The first fault ends it.
-/
namespace Scaffold

structure Output where
  /-- The number of models. -/
  models : Nat
  /-- The classes in the order of the roster. -/
  classes : List ClassDesc
  /-- The TypeScript definitions, unless they are switched off. -/
  typescript : Option (List Projection.Definition)
deriving Inhabited

namespace Output

/-- Describes every class of a survey and projects the types. -/
def ofSurvey (c : Catalog) (survey : Survey) (settings : Settings) : Except Fault Output := do
  let classes ← survey.roster.plans.mapM (ClassDesc.ofPlan c survey settings)
  let typescript ←
    if settings.typescript.enabled then
      some <$> Projection.projectTypes ⟨c, survey.capabilities, settings.typescript⟩
    else pure none
  pure ⟨c.models.length, classes, typescript⟩

def ofCatalog (c : Catalog) (settings : Settings) : Except Fault Output := do
  c.check
  let survey ← Survey.ofCatalog c settings
  ofSurvey c survey settings

def definitionCount (o : Output) : Nat :=
  match o.typescript with
  | some definitions => definitions.length
  | none => 0

end Output

/-- Projects the types of a checked catalog, whether or not that is switched on. -/
def projectCatalog (c : Catalog) (settings : Settings.TypeScript) :
    Except Fault (List Projection.Definition) := do
  c.check
  Projection.projectTypes ⟨c, Capabilities.ofCatalog c, settings⟩

end Scaffold
