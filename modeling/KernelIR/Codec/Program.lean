import KernelIR.Codec.Code
import KernelIR.Lowering.Pass
import KernelIR.Program.Module

/-!
# Functions, modules and settings as JSON
-/

namespace KernelIR

open Json.Field (required nullable defaulted)

instance : Codec Block where
  encode b := .obj [("id", encode b.id), ("instructions", encode b.instructions)]
  decode? budget j := do
    let inner ← Json.open? budget
    let [id, instructions] ← j.fields? [required "id", required "instructions"] | none
    return ⟨← decode? inner id, ← decode? inner instructions⟩

instance : Codec Function where
  encode f := .obj [("name", encode f.name), ("return_type", encode f.returnType),
    ("parameters", encode f.params), ("blocks", encode f.blocks),
    ("is_external", encode f.external), ("is_vararg", encode f.variadic)]
  decode? budget j := do
    let inner ← Json.open? budget
    let [name, returnType, params, blocks, external, variadic] ← j.fields? [required "name",
      required "return_type", required "parameters", required "blocks", required "is_external",
      required "is_vararg"] | none
    return ⟨← decode? inner name, ← decode? inner returnType, ← decode? inner params,
      ← decode? inner blocks, ← decode? inner external, ← decode? inner variadic⟩

namespace Linkage

/-- The name of a linkage. -/
def name : Linkage → String
  | .external => "External"
  | .internal => "Internal"

end Linkage

instance : Codec Linkage where
  encode l := .str l.name
  decode? budget j := do
    let name ← j.unit? budget
    [Linkage.external, Linkage.internal].find? (·.name == name)

instance : Codec Global where
  encode g := .obj [("name", encode g.name), ("var_type", encode g.ty),
    ("is_constant", encode g.isConstant), ("initializer", encode g.init),
    ("linkage", encode g.linkage)]
  decode? budget j := do
    let inner ← Json.open? budget
    let [name, ty, isConstant, init, linkage] ← j.fields? [required "name", required "var_type",
      required "is_constant", nullable "initializer", required "linkage"] | none
    return ⟨← decode? inner name, ← decode? inner ty, ← decode? inner isConstant,
      ← decode? inner init, ← decode? inner linkage⟩

instance : Codec Module where
  encode m := .obj [("name", encode m.name), ("functions", encode m.functions),
    ("globals", encode m.globals), ("data_layout", encode m.layout)]
  decode? budget j := do
    let inner ← Json.open? budget
    let [name, functions, globals, layout] ← j.fields? [required "name", required "functions",
      required "globals", defaulted "data_layout" (encode ({} : DataLayout))] | none
    return ⟨← decode? inner name, ← decode? inner functions, ← decode? inner globals,
      ← decode? inner layout⟩

instance : Codec Settings where
  encode s := .obj [("copy_memory_name", encode s.copyBase), ("verify", encode s.verify)]
  decode? budget j := do
    let inner ← Json.open? budget
    let defaults : Settings := {}
    let [copyBase, verify] ← j.fields? [defaulted "copy_memory_name" (encode defaults.copyBase),
      defaulted "verify" (encode defaults.verify)] | none
    return ⟨← decode? inner copyBase, ← decode? inner verify⟩

end KernelIR
