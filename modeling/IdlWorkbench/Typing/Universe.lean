import IdlWorkbench.Typing.Surface

/-!
# Predeclared names and the standard library

Some names mean the same in every package. Of the standard library the package `time` can be imported.
-/

namespace IdlWorkbench

inductive Predeclared where
  | type (t : Ty)
  | const (d : ConstDef)
  /-- The number of a constant in its group. -/
  | iota

def Predeclared.find? (name : String) : Option Predeclared :=
  let basic (kind : BasicKind) : Option Predeclared := some (.type (.basic kind))
  match name with
  | "bool" => basic .bool
  | "string" => basic .string
  | "int" => basic .int
  | "int8" => basic .int8
  | "int16" => basic .int16
  | "int32" | "rune" => basic .int32
  | "int64" => basic .int64
  | "uint" => basic .uint
  | "uint8" | "byte" => basic .uint8
  | "uint16" => basic .uint16
  | "uint32" => basic .uint32
  | "uint64" => basic .uint64
  | "float32" => basic .float32
  | "float64" => basic .float64
  | "any" => some (.type (.interface []))
  | "true" => some (.const ⟨.basic .untypedBool, .bool true⟩)
  | "false" => some (.const ⟨.basic .untypedBool, .bool false⟩)
  | "iota" => some .iota
  | _ => none

namespace Surface

def numbered (type : Ty) (first : Int) (names : List String) : Table String ConstDef :=
  names.zipIdx.map fun (name, i) => (name, ⟨type, .int (first + i)⟩)

def time : Surface :=
  let type (name : String) : Ty := .named ⟨"time", "time", name⟩
  let unit (name : String) (nanoseconds : Int) : String × ConstDef :=
    (name, ⟨type "Duration", .int nanoseconds⟩)
  { path := "time"
    name := "time"
    types :=
      [("Time", .struct []), ("Duration", .basic .int64), ("Month", .basic .int), ("Weekday", .basic .int)]
    consts :=
      [unit "Nanosecond" 1, unit "Microsecond" 1000, unit "Millisecond" 1000000,
        unit "Second" 1000000000, unit "Minute" 60000000000, unit "Hour" 3600000000000] ++
      numbered (type "Month") 1
        ["January", "February", "March", "April", "May", "June", "July", "August", "September",
          "October", "November", "December"] ++
      numbered (type "Weekday") 0
        ["Sunday", "Monday", "Tuesday", "Wednesday", "Thursday", "Friday", "Saturday"]
    imports := [] }

/-- The surface of a package of the standard library. -/
def standard? (path : String) : Option Surface := if path = "time" then some time else none

end Surface

end IdlWorkbench
