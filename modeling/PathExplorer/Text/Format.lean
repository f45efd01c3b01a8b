import PathExplorer.Text.Json.Read
import PathExplorer.Text.Json.Written
import PathExplorer.Text.Yaml.Written

namespace PathExplorer

structure Format (α : Type) where
  read? : String → Option α
  write : α → String

/-- The text of the tree is read as that tree. -/
def Format.ReadsBack {α : Type} (f : Format α) (a : α) : Prop := f.read? (f.write a) = some a

def Yaml.format : Format Yaml := ⟨read?, write⟩

def Json.format : Format Json := ⟨read?, write⟩

end PathExplorer
