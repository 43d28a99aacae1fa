import TypeSchema.Reader
import TypeSchema.Source
import TypeSchema.Terminal.Emitter

/-!
# Loading a library

Sources are read in the order given, each with the modules of those before it at hand. The first
that is at fault ends the loading.
-/

namespace TypeSchema

inductive LoadFault where
  | unreadable (file : String) (fault : Fault)
  /-- two files hold a module of one name -/
  | repeatedModule (name file previous : String)
  deriving DecidableEq, Repr

namespace LoadFault

def file : LoadFault → String
  | .unreadable file _ | .repeatedModule _ file _ => file

def message : LoadFault → String
  | .unreadable file fault => file ++ ": " ++ fault.message
  | .repeatedModule name file _ => "duplicate module " ++ inTicks name ++ " from " ++ file

def toDiagnostic : LoadFault → Diagnostic
  | .unreadable _ fault => fault.toDiagnostic
  | .repeatedModule name file previous => {
      code := .repeatedModule
      message := "duplicate module " ++ inTicks name
      notes := [inTicks file ++ " and " ++ inTicks previous ++ " both define module " ++
        inTicks name]
      suggestions := ["rename one of the files"] }

/-- What the diagnostic quotes from: the first of the sources that has the file's name. -/
def sourceIn? (f : LoadFault) (sources : List Source) : Option Source :=
  sources.find? (·.file = f.file)

open Terminal in
/-- The diagnostic and a summary as text that is not on a terminal. -/
def render (f : LoadFault) (sources : List Source) (coloring : Coloring) : String :=
  let emitter : Emitter :=
    { colors := coloring.resolve false false, source := f.sourceIn? sources }
  String.join (emitter.run [.emit f.toDiagnostic, .summary 1 0])

end LoadFault

namespace Library

/-- The library with the module of one more source. A name that is taken is found out before the
source is read. -/
def load (l : Library) (s : Source) : Except LoadFault Library := do
  let name := ModuleName.ofPath s.file
  if let some previous := l.get? name then throw (.repeatedModule name s.file previous.file)
  let m ← (Module.read s.file s.text l).mapError (.unreadable s.file)
  match l.insert? m with
  | some grown => return grown
  | none => throw (.repeatedModule m.name m.file (((l.get? m.name).map (·.file)).getD ""))

def ofSources (sources : List Source) : Except LoadFault Library := sources.foldlM load empty

end Library

end TypeSchema
