import TypeSchema.Module.Name
import TypeSchema.Read.Definition

/-!
# Reading a module

A reader holds what is known so far and the cursor. `next` reads one definition and accepts it;
what is known changes only there. After a fault a reader has kept the definitions before it, and
it goes on from where the fault left the cursor.
-/

namespace TypeSchema

structure Reader where
  context : Context
  cursor : Cursor

namespace Reader

def ofSource (source : String) (library : Library) : Reader :=
  ⟨.initial library, .ofSource source⟩

def definitions (r : Reader) : List Definition := r.context.accepted.values

/-- The next definition, or none if only blank lines are left. -/
def next (r : Reader) : Except Fault (Option Definition) × Reader :=
  match Read.definition? r.context r.cursor with
  | .error fault cursor => (.error fault, { r with cursor })
  | .ok none cursor => (.ok none, { r with cursor })
  | .ok (some d) cursor =>
    -- an alias is known before its import is accepted
    let context := r.context.withAlias d
    match context.accept d with
    | .error fault => (.error fault, { context, cursor })
    | .ok context => (.ok (some d), { context, cursor })

/-- Reads on to the end or to the first fault. -/
def drain (r : Reader) : Except Fault Unit × Reader :=
  match r.next with
  | (.error fault, after) => (.error fault, after)
  | (.ok none, after) => (.ok (), after)
  | (.ok (some _), after) =>
    if after.cursor.remaining < r.cursor.remaining then after.drain
    else (.error (.unexpected [] after.cursor.peek), after)
termination_by r.cursor.remaining

/-- All definitions accepted so far, once the text is read to its end. -/
def resolveAll (r : Reader) : Except Fault (List Definition) × Reader :=
  let (outcome, after) := r.drain
  (outcome.map fun _ => after.definitions, after)

def finish (r : Reader) (file : String) : Module :=
  ⟨ModuleName.ofPath file, file, r.context.accepted⟩

end Reader

def Module.read (file text : String) (library : Library) : Except Fault Module :=
  let (outcome, after) := (Reader.ofSource text library).drain
  outcome.map fun _ => after.finish file

end TypeSchema
