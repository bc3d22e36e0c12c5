import Plume.Value.Basic

/-!
# What a script can use

An environment binds names to values. A new name goes behind the others; a bound name keeps its
place when it is bound again. Built-in functions have a table of their own, so a name may be bound
and be that of a function.
-/

namespace Plume

/-! ## Environments -/

/-- The values that names are bound to. -/
structure Environment where
  bindings : List (Text × Value)

namespace Environment

/-- Binds nothing. -/
def empty : Environment := ⟨[]⟩

/-- The value that a name is bound to. -/
def get? (env : Environment) (name : Text) : Option Value := env.bindings.lookup name

/-- Bindings with a name bound to a value. -/
def insertBinding (name : Text) (value : Value) : List (Text × Value) → List (Text × Value)
  | [] => [(name, value)]
  | (other, old) :: rest =>
    if other == name then (name, value) :: rest
    else (other, old) :: insertBinding name value rest

/-- The environment with a name bound to a value. -/
def insert (env : Environment) (name : Text) (value : Value) : Environment :=
  ⟨insertBinding name value env.bindings⟩

/-- A binding changes the value of its own name and of no other. -/
theorem lookup_insertBinding (name : Text) (value : Value) (bindings : List (Text × Value))
    (x : Text) :
    (insertBinding name value bindings).lookup x
      = if x = name then some value else bindings.lookup x := by
  induction bindings with
  | nil => grind [insertBinding]
  | cons b rest ih => grind [insertBinding]

/-- The new binding hides an older one of its name, and no other. -/
theorem get?_insert (env : Environment) (name : Text) (value : Value) (x : Text) :
    (env.insert name value).get? x = if x = name then some value else env.get? x :=
  lookup_insertBinding name value env.bindings x

/-- Binds names one after another. -/
def ofList (bindings : List (Text × Value)) : Environment :=
  bindings.foldl (fun env b => env.insert b.1 b.2) empty

/-- The bindings in the order of their names. -/
def sorted (env : Environment) : List (Text × Value) :=
  env.bindings.mergeSort fun a b => (compare a.1 b.1).isLE

end Environment

/-! ## Built-in functions -/

/-- A function of values that takes `arity` arguments. -/
structure Builtin where
  arity : Nat
  call : (Fin arity → Value) → Value

/-- The functions that a script can call. -/
structure Builtins where
  table : List (Text × Builtin)

namespace Builtins

/-- The function of a name. -/
def get? (builtins : Builtins) (name : Text) : Option Builtin := builtins.table.lookup name

/-- The functions of the language: `str` gives the text of its argument. -/
def standard : Builtins := ⟨[("str", ⟨1, fun arguments => .str (arguments 0).text⟩)]⟩

end Builtins

end Plume
