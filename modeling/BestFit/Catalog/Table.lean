import BestFit.Catalog

/-! Catalogs written out as tables. A table never changes, so its array types are
those that it lists and no others. -/
namespace BestFit

/-- The declaration listed for a handle; the first one counts. -/
def TypeDecl.lookup (decls : List TypeDecl) (t : TypeHandle) : Option TypeDecl :=
  decls.find? (·.handle == t)

theorem TypeDecl.handle_of_lookup {decls : List TypeDecl} {t : TypeHandle} {d : TypeDecl}
    (h : lookup decls t = some d) : d.handle = t := by
  have hd := List.find?_some h
  exact beq_iff_eq.mp hd

theorem TypeDecl.mem_handles_of_lookup {decls : List TypeDecl} {t : TypeHandle} {d : TypeDecl}
    (h : lookup decls t = some d) : t ∈ decls.map TypeDecl.handle :=
  List.mem_map.mpr ⟨d, List.mem_of_find?_eq_some h, handle_of_lookup h⟩

/-- A fixed list of types, constructors and array types. -/
structure TypeTable where
  types : List TypeDecl := []
  ctors : List Ctor := []
  /-- Each component with the array type over it. -/
  arrays : List (TypeHandle × TypeHandle) := []

namespace TypeTable

/-- What the table lists, as a catalog. -/
def catalog (tbl : TypeTable) : Catalog where
  decl? := TypeDecl.lookup tbl.types
  ctor? k := tbl.ctors.find? (·.handle == k)
  handles := tbl.types.map TypeDecl.handle
  mem_handles := TypeDecl.mem_handles_of_lookup

/-- The array type listed for a component. -/
def arrayOf (tbl : TypeTable) (component : TypeHandle) : TypeHandle :=
  (tbl.arrays.lookup component).getD .absent

/-- A table as a type source: asking it for an array type leaves it as it is. -/
def source : TypeSource TypeTable where
  catalog := catalog
  arrayOf component := fun tbl => (tbl.arrayOf component, tbl)

end TypeTable

end BestFit
