import IdlWorkbench.Typing.Surface

/-!
# Comparable types

Values of a type can be compared unless a slice, a map or a function is stored in them. Map keys must be
comparable. A declared type is looked into once; a type that contains itself is fine as far as this goes.
-/

namespace IdlWorkbench

/-- The declared types looked into so far, or `none` once a part was found that cannot be compared. -/
abbrev Seen := Option (List NamedRef)

namespace Ty

mutual

/-- Look into a type; `enter` does so for declared types. -/
def comparableWith (enter : NamedRef → List NamedRef → Seen) : Ty → List NamedRef → Seen
  | .invalid, seen | .basic _, seen | .pointer _, seen | .chan _, seen | .interface _, seen => some seen
  | .slice _, _ | .map .., _ | .func .., _ => none
  | .named r, seen => enter r seen
  | .struct fields, seen => comparableFields enter fields seen

def comparableFields (enter : NamedRef → List NamedRef → Seen) : List FieldTy → List NamedRef → Seen
  | [], seen => some seen
  | ⟨_, type, _, _⟩ :: fields, seen =>
    (comparableWith enter type seen).bind fun seen => comparableFields enter fields seen

end

end Ty

namespace Surface

/-- Look into a declared type that was not seen before. -/
def enterWithin (s : Surface) : (fuel : Nat) → NamedRef → List NamedRef → Seen
  | 0, _, seen => some seen
  | n + 1, r, seen =>
    if seen.contains r then some seen
    else (s.underlying (.named r)).comparableWith (s.enterWithin n) (r :: seen)

/-- Whether values of a type can be compared. Every declared type that is entered is mentioned by the type
itself or by a surface in reach, which bounds the depth. -/
def comparable (s : Surface) (t : Ty) : Bool :=
  (t.comparableWith (s.enterWithin (t.refs.length + s.refs.length + 1)) []).isSome

end Surface

end IdlWorkbench
