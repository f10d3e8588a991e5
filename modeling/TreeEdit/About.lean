/-!
# What the engine says about itself
-/

namespace TreeEdit

/-- The name that the engine reports. -/
def engineName : String := "styler-core"

/-- The version that the engine reports. -/
def engineVersion : String := "0.1.0"

end TreeEdit
