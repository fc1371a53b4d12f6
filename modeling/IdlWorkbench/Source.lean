import IdlWorkbench.Doc.Tag

/-!
# Sources

A source is a text together with its parse.
-/

namespace IdlWorkbench

structure Source where
  text : String
  parse : Parse

namespace Source

def ofText (text : String) : Source := ⟨text, IdlWorkbench.parse text⟩

def tree (s : Source) : Tree := s.parse.tree

def file (s : Source) : SourceFile := s.parse.file

end Source

end IdlWorkbench
