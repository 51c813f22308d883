/-
Reading a program file.

Members that no record knows are passed over.  Three fields may be missing: the
annotations of a program (none), the block of an instruction (placed nowhere) and
the value of a return (none).  Handles, lengths and parameter positions are
numbers of 32 bits, constants and annotation values signed numbers of 64 bits.

A record may be given as the list of its field values.  Whether this goes for the
fields of an operation too depends on where the value comes from: it does in a file,
and it does not in a value that is passed on.
-/
import KernelCoarsening.Ir.Program
import KernelCoarsening.Json.Reader
import KernelCoarsening.ProgramFile.Tag

namespace KernelCoarsening

open Json (required)

def BlockId.decode (v : Json) : Option BlockId := BlockId.mk <$> v.word?

def InstId.decode (v : Json) : Option InstId := InstId.mk <$> v.word?

def GlobalId.decode (v : Json) : Option GlobalId := GlobalId.mk <$> v.word?

def AddressSpace.decode (v : Json) : Option AddressSpace := do ofTag? (← v.tag?)

def BinaryOp.decode (v : Json) : Option BinaryOp := do ofTag? (← v.tag?)

def Comparison.decode (v : Json) : Option Comparison := do ofTag? (← v.tag?)

def Conversion.decode (v : Json) : Option Conversion := do ofTag? (← v.tag?)

def CallingConvention.decode (v : Json) : Option CallingConvention := do ofTag? (← v.tag?)

/-- The type that a tag without content spells. -/
def Ty.ofTag? : String → Option Ty
  | "Void" => some void
  | "I1" => some i1
  | "I32" => some i32
  | "I64" => some i64
  | "F32" => some f32
  | "F64" => some f64
  | _ => none

def Ty.decode (v : Json) : Option Ty :=
  match v.tag?.bind ofTag? with
  | some t => some t
  | none =>
    match v.tagged? with
    | some ("Ptr", space) => ptr <$> AddressSpace.decode space
    | _ => none

def Value.decode (v : Json) : Option Value :=
  match v.tag? with
  | some "Undef" => some undef
  | _ =>
    match v.tagged? with
    | some ("Inst", i) => inst <$> InstId.decode i
    | some ("Arg", n) => arg <$> n.word?
    | some ("Const", c) => const <$> c.int64?
    | some ("Global", g) => global <$> GlobalId.decode g
    | _ => none

/-- An incoming value of a phi: a list of exactly two items. -/
def Value.decodeIncoming : Json → Option (Value × BlockId)
  | .arr [v, b] => do return (← Value.decode v, ← BlockId.decode b)
  | _ => none

/-- How the fields of an operation may be given. -/
inductive FieldForm where
  /-- By their keys. -/
  | keyed
  /-- By their keys, or in order. -/
  | keyedOrListed
  deriving DecidableEq

/-- The values of the fields of an operation, in the order of the fields. -/
def FieldForm.fields (form : FieldForm) (content : Json) (fields : List Json.Field) :
    Option (List Json) :=
  match form, content with
  | keyed, .arr _ => none
  | _, content => content.record fields

/-- The operation that a tag with the values of its fields spells. -/
def Operation.ofFields? (form : FieldForm) (tag : String) (content : Json) : Option Operation :=
  let fields := form.fields content
  match tag with
  | "Binary" => do
    let [op, l, r] ← fields (required ["op", "lhs", "rhs"]) | none
    return binary (← BinaryOp.decode op) (← Value.decode l) (← Value.decode r)
  | "Cmp" => do
    let [p, l, r] ← fields (required ["pred", "lhs", "rhs"]) | none
    return compare (← Comparison.decode p) (← Value.decode l) (← Value.decode r)
  | "Cast" => do
    let [op, v] ← fields (required ["op", "value"]) | none
    return convert (← Conversion.decode op) (← Value.decode v)
  | "Select" => do
    let [c, t, e] ← fields (required ["cond", "on_true", "on_false"]) | none
    return select (← Value.decode c) (← Value.decode t) (← Value.decode e)
  | "Phi" => do
    let [incoming] ← fields (required ["incoming"]) | none
    return phi (← incoming.list? Value.decodeIncoming)
  | "Gep" => do
    let [b, i] ← fields (required ["base", "index"]) | none
    return element (← Value.decode b) (← Value.decode i)
  | "Load" => do
    let [p] ← fields (required ["ptr"]) | none
    return load (← Value.decode p)
  | "Store" => do
    let [p, v] ← fields (required ["ptr", "value"]) | none
    return store (← Value.decode p) (← Value.decode v)
  | "Call" => do
    let [f, args] ← fields (required ["callee", "args"]) | none
    return call (← f.str?) (← args.list? Value.decode)
  | "Br" => do
    let [t] ← fields (required ["target"]) | none
    return jump (← BlockId.decode t)
  | "CondBr" => do
    let [c, t, e] ← fields (required ["cond", "then_block", "else_block"]) | none
    return branch (← Value.decode c) (← BlockId.decode t) (← BlockId.decode e)
  | "Ret" => do
    let [v] ← fields [⟨"value", some .null, none⟩] | none
    return ret (← v.option? Value.decode)
  | _ => none

def Operation.decode (form : FieldForm) (v : Json) : Option Operation :=
  match v.tag? with
  | some "Unreachable" => some unreachable
  | _ => do
    let (tag, content) ← v.tagged?
    ofFields? form tag content

def Param.decode (v : Json) : Option Param := do
  let [name, ty] ← v.record (required ["name", "ty"]) | none
  return { name := ← name.str?, ty := ← Ty.decode ty }

def Block.decode (v : Json) : Option Block := do
  let [name, insts] ← v.record (required ["name", "insts"]) | none
  return { name := ← name.str?, insts := ← insts.list? InstId.decode }

def Inst.decode (form : FieldForm) (v : Json) : Option Inst := do
  let [op, ty, name, block] ← v.record
    (required ["kind", "ty", "name"] ++ [⟨"block", some .null, none⟩]) | none
  return { op := ← Operation.decode form op, ty := ← Ty.decode ty, name := ← name.str?,
           block := ← block.option? BlockId.decode }

def Func.decode (form : FieldForm) (v : Json) : Option Func := do
  let [name, params, returnTy, convention, blocks, layout, insts] ← v.record
    (required ["name", "params", "ret_ty", "calling_conv", "blocks", "layout", "insts"]) | none
  return { name := ← name.str?, params := ← params.list? Param.decode,
           returnTy := ← Ty.decode returnTy,
           convention := ← CallingConvention.decode convention,
           blocks := (← blocks.list? Block.decode).toArray,
           layout := ← layout.list? BlockId.decode,
           insts := (← insts.list? (Inst.decode form)).toArray }

def Global.decode (v : Json) : Option Global := do
  let [name, ty, length, space] ← v.record (required ["name", "ty", "len", "address_space"]) | none
  return { name := ← name.str?, ty := ← Ty.decode ty, length := ← length.word?,
           space := ← AddressSpace.decode space }

def Annotation.decode (v : Json) : Option Annotation := do
  let [symbol, key, value] ← v.record (required ["symbol", "key", "value"]) | none
  return { symbol := ← symbol.str?, key := ← key.str?, value := ← value.int64? }

def Program.decode (form : FieldForm) (v : Json) : Option Program := do
  let [name, target, functions, globals, annotations] ← v.record
    (required ["name", "target_triple", "functions", "globals"]
      ++ [⟨"annotations", some (.arr []), some (.arr [])⟩]) | none
  return { name := ← name.str?, target := ← target.str?,
           functions := ← functions.list? (Func.decode form),
           globals := ← globals.list? Global.decode,
           annotations := ← annotations.list? Annotation.decode }

/-- Why a text is no program file. -/
inductive FileError where
  | notJson
  | notAProgram
  deriving DecidableEq

def FileError.message : FileError → String
  | notJson => "the text is not JSON"
  | notAProgram => "the value does not describe a program"

/-- The program that a file holds. -/
def Program.ofFileText (text : String) : Except FileError Program :=
  match Json.parse? text with
  | none => .error .notJson
  | some v =>
    match Program.decode .keyedOrListed v with
    | none => .error .notAProgram
    | some p => .ok p

end KernelCoarsening
