import PythonTypes.Descriptor.Basic

/-!
# The modules of the analysed project

A project holds one descriptor for each of its modules; registering a module again replaces the
descriptor.
-/

set_option autoImplicit false

namespace PythonTypes

/-- The modules of the analysed project by path. -/
structure Project where
  modules : OrderedMap String ModuleDescriptor := ∅

namespace Project

instance : Inhabited Project := ⟨{}⟩

/-- Registers a module in place of one with the same path. -/
def addModule (p : Project) (m : ModuleDescriptor) : Project := { modules := p.modules.insert m.path m }

def lookup (p : Project) (path : String) : Option ModuleDescriptor := p.modules.get? path

def isPackage (p : Project) (path : String) : Bool := p.modules.keys.any (DottedName.isBelow path)

end Project

end PythonTypes
