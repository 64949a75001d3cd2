import Scaffold.Settings.Written
import Scaffold.Toml.Reader

/-!
Settings as text, in TOML.
-/
namespace Scaffold.Settings

/-- The settings that a text holds; none if it is not TOML or says something else. -/
def parse? (source : String) : Option Settings := do
  let t ← Toml.parse? source
  (reader Reader.maxLevels t).toOption

end Scaffold.Settings
