import BestFit.Catalog.Table

/-! The types that every store knows from the start. -/
namespace BestFit.Builtin

/-- A public class that cannot be extended, directly below `superclass`. -/
private def closedClass (t : TypeHandle) (name : String) (superclass : TypeHandle) : TypeDecl :=
  { handle := t, name, shape := .classType,
    modifiers := { isPublic := true, isFinal := true }, superclass := some superclass }

/-- The built-in types in the order of their handles: the null type, the
primitives, the two roots of the class hierarchy, the wrappers and the string
class. `Boolean` and `Character` are no numbers. -/
def decls : List TypeDecl :=
  [ { handle := .null, name := "null", shape := .null, modifiers := { isPublic := true } } ]
  ++ ([.void, .boolean, .byte, .char, .short, .int, .long, .float, .double] : List Primitive).map
      (fun p => { handle := p.handle, name := p.name, shape := .primitive p,
                  modifiers := { isPublic := true, isFinal := true } })
  ++ [ { handle := .object, name := "Object", shape := .classType,
         modifiers := { isPublic := true } },
       { handle := .number, name := "Number", shape := .classType,
         modifiers := { isPublic := true, isAbstract := true }, superclass := some .object },
       closedClass .boxedBoolean "Boolean" .object,
       closedClass .boxedByte "Byte" .number,
       closedClass .boxedChar "Character" .object,
       closedClass .boxedShort "Short" .number,
       closedClass .boxedInt "Integer" .number,
       closedClass .boxedLong "Long" .number,
       closedClass .boxedFloat "Float" .number,
       closedClass .boxedDouble "Double" .number,
       closedClass .string "String" .object ]

/-- The declaration of a built-in type. -/
def decl? (t : TypeHandle) : Option TypeDecl := TypeDecl.lookup decls t

/-- The handles of the built-in types. -/
def handles : List TypeHandle := decls.map TypeDecl.handle

theorem mem_handles {t : TypeHandle} {d : TypeDecl} (h : decl? t = some d) : t ∈ handles :=
  TypeDecl.mem_handles_of_lookup h

/-- Handles 1 to 21, without a gap. -/
theorem handles_eq : handles = (List.range' 1 21).map TypeHandle.mk := by decide

end BestFit.Builtin
